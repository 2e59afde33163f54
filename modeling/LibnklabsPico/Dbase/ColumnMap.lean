/-
  Dbase/ColumnMap.lean --- where the parser of tables uses its column map.

  `nk_fscan_keyval` has room for `NKDBASE_MAXCOLS` columns of a table header.  Here it logs
  every `col` it uses `map[col]` with, in the header and in the rows, tables within tables
  included; the rest of it is the parser that is already there (`erases_keyval`).  The
  accesses stay within `map` on a text exactly if none of its headers has more names.
-/
import LibnklabsPico.Dbase.Bounds
import LibnklabsPico.File.Logged
import LibnklabsPico.Text.Quoted

set_option autoImplicit false

namespace LibnklabsPico.Dbase

open LibnklabsPico.Foundation
open LibnklabsPico.File
open LibnklabsPico.File.FileProg
open LibnklabsPico.Text

/-! ## The parser with a log -/

/-- Programs that log each `col` of a `map[col]`. -/
abbrev MapUse (α : Type) : Type := Logged Nat α

/-- The parser for a value at an address, with the uses of `map`. -/
abbrev ValueScanLog : Type := Nat → Memory → MapUse (Bool × Memory)

section
variable (fl : Floats)

/-- `structLoop` with the uses of `map`. -/
def structLoopLog (value : Ty → ValueScanLog) (skip : FileProg Bool) (fuel : Nat)
    (members : List Member) (location : Nat) : Nat → Bool → Memory → MapUse (Bool × Memory)
  | 0, rtn, mem => pure (rtn, mem)
  | n + 1, rtn, mem => do
      nkFscanWs fuel
      let (found, buf) ← nkFscanBuf fl fuel "%i : %e" nkdbaseMaxIdentLen
      if found then
        match findMember members buf with
        | some (_, type, offset) => do
            let (rtn, mem) ← value type (location + offset) mem
            if rtn then do
              commaLoop fl fuel fuel
              structLoopLog value skip fuel members location n true mem
            else do
              -- Maybe type is wrong? Try to parse over it..
              let rtn ← skip
              if rtn then do
                commaLoop fl fuel fuel
                structLoopLog value skip fuel members location n true mem
              else pure (false, mem)
        | none => do
            -- Ignore unknown member
            let _ ← skip
            commaLoop fl fuel fuel
            structLoopLog value skip fuel members location n rtn mem
      else pure (rtn, mem)

/-- `arrayLoop` with the uses of `map`. -/
def arrayLoopLog (value : ValueScanLog) (skip : FileProg Bool) (fuel base size itemSize : Nat) :
    Nat → Nat → Bool → Memory → MapUse (Bool × Nat × Memory)
  | 0, idx, rtn, mem => pure (rtn, idx, mem)
  | n + 1, idx, rtn, mem => do
      nkFscanWs fuel
      let c ← fpeek
      if c ≠ -1 ∧ c ≠ ch ']' then
        if c = ch ',' then do
          let _ ← fnextFast
          arrayLoopLog value skip fuel base size itemSize n idx rtn mem
        else if idx < size then do
          let (rtn, mem) ← value (base + idx) mem
          if rtn then arrayLoopLog value skip fuel base size itemSize n (idx + itemSize) true mem
          else pure (false, idx, mem)
        else do
          -- Ignore extra item
          let rtn ← skip
          if rtn then arrayLoopLog value skip fuel base size itemSize n idx true mem
          else pure (false, idx, mem)
      else pure (rtn, idx, mem)

/-- `columnLoop`, which writes `map[col]` for every name that it knows. -/
def columnLoopLog (columns : List Member) (fuel : Nat) :
    Nat → Nat → List (Option Member) → MapUse (Nat × List (Option Member))
  | 0, col, map => pure (col, map)
  | n + 1, col, map => do
      let (found, buf) ← nkFscanBuf fl fuel " %i %e" nkdbaseMaxIdentLen
      if found then
        match findMember columns buf with
        | some m => do
            Logged.event col
            columnLoopLog columns fuel n (col + 1) (map.set col (some m))
        | none => columnLoopLog columns fuel n (col + 1) map
      else pure (col, map)

end

/-- `fieldLoop`, which reads `map[col]` for every column of the header. -/
def fieldLoopLog (value : Ty → ValueScanLog) (skip : FileProg Bool) (fuel location : Nat)
    (full : Bool) (maxcol : Nat) :
    Nat → List (Option Member) → Bool → Memory → MapUse (Bool × Memory)
  | col, [], rtn, mem =>
      -- the source reads on behind the end of `map`
      if col < maxcol then do
        Logged.event col
        pure (rtn, mem)
      else pure (rtn, mem)
  | col, x :: map, _, mem => do
      Logged.event col
      match if full then none else x with
      | none => do
          -- Skip this field
          let rtn ← skip
          if rtn then fieldLoopLog value skip fuel location full maxcol (col + 1) map true mem
          else pure (false, mem)
      | some (_, type, offset) => do
          nkFscanWs fuel
          let (rtn, mem) ← value type (location + offset) mem
          if rtn then fieldLoopLog value skip fuel location full maxcol (col + 1) map true mem
          else pure (false, mem)

section
variable (fl : Floats)

/-- `rowLoop` with the uses of `map`. -/
def rowLoopLog (value : Ty → ValueScanLog) (skip : FileProg Bool) (fuel rowSize maxrows : Nat)
    (maxcol : Nat) (map : List (Option Member)) :
    Nat → Nat → Nat → Bool → Memory → MapUse (Bool × Nat × Memory)
  | 0, row, _, rtn, mem => pure (rtn, row, mem)
  | n + 1, row, location, rtn, mem => do
      let more ← nkFscan fl fuel " : %e"
      if more then do
        let (rtn, mem) ← fieldLoopLog value skip fuel location (row == maxrows) maxcol 0 map rtn mem
        rowLoopLog value skip fuel rowSize maxrows maxcol map n
          (if row ≠ maxrows then row + 1 else row) (location + rowSize) rtn mem
      else pure (rtn, row, mem)

/-- `scanValue` with the uses of `map`. -/
def scanValueLog (value : Ty → ValueScanLog) (skip : FileProg Bool) (fuel : Nat) (type : Ty)
    (location : Nat) (c : Int) (mem : Memory) : MapUse (Bool × Memory) :=
  match type with
  | .tStruct _ members _ =>
      if c = ch '{' then do
        let _ ← fnextFast
        let (rtn, mem) ← structLoopLog fl value skip fuel members location fuel true mem
        let sta ← closing (ch '}') rtn
        pure (sta, mem)
      else pure (false, mem)
  | .tVarray size subtype _ =>
      if c = ch '[' then do
        let _ ← fnextFast
        let (rtn, idx, mem) ← arrayLoopLog (value subtype) skip fuel (location + lenSize) size
          subtype.size fuel 0 true mem
        let sta ← closing (ch ']') rtn
        pure (sta, setLen mem location (idx / subtype.size))
      else pure (false, mem)
  | .tArray size subtype _ =>
      if c = ch '[' then do
        let _ ← fnextFast
        let (rtn, _, mem) ← arrayLoopLog (value subtype) skip fuel location size subtype.size fuel
          0 true mem
        let sta ← closing (ch ']') rtn
        pure (sta, mem)
      else pure (false, mem)
  | .tTable size rowSize columns _ =>
      if c = ch '(' then do
        let _ ← fnextFast
        let (maxcol, map) ← columnLoopLog fl columns fuel fuel 0
          (List.replicate nkdbaseMaxCols none)
        let (rtn, row, mem) ← rowLoopLog fl value skip fuel rowSize (size / rowSize) maxcol
          (map.take maxcol) fuel 0 (location + lenSize) true mem
        let mem := setLen mem location row
        let close ← nkFscan fl fuel " )%e"
        pure (close && rtn, mem)
      else pure (false, mem)
  -- no table in it
  | type => scanValue fl (fun _ _ mem => pure (false, mem)) skip fuel type location c mem

/-- `nk_fscan_keyval` with the uses of `map`. -/
def nkFscanKeyvalLog : Nat → Ty → ValueScanLog
  | 0, _, _, mem => pure (false, mem)
  | fuel + 1, type, location, mem => Logged.orRewind (fun result => result.1) do
      let c ← fpeek
      let (sta, mem) ← scanValueLog fl (nkFscanKeyvalLog fuel) (skipValue fl fuel) fuel type
        location c mem
      pure (sta && type.check.passes mem location, mem)

end

/-! ## Without the log it is the parser -/

section
variable {fl : Floats} {valueLog : Ty → ValueScanLog} {value : Ty → ValueScan}
  {skip : FileProg Bool} {fuel location : Nat}

theorem erases_structLoop
    (hvalue : ∀ type location mem, Erases (valueLog type location mem) (value type location mem))
    (members : List Member) (n : Nat) (rtn : Bool) (mem : Memory) :
    Erases (structLoopLog fl valueLog skip fuel members location n rtn mem)
      (structLoop fl value skip fuel members location n rtn mem) := by
  induction n generalizing rtn mem with
  | zero => exact .pure _
  | succ n ih =>
      refine .lift_then _ fun _ => .lift_then _ fun r => ?_
      obtain ⟨found, buf⟩ := r
      refine .ite ?_ (.pure _)
      cases findMember members buf with
      | none => exact .lift_then _ fun _ => .lift_then _ fun _ => ih rtn mem
      | some m =>
          refine (hvalue m.2.1 (location + m.2.2) mem).bind fun r => .ite ?_ ?_
          · exact .lift_then _ fun _ => ih true r.2
          · refine .lift_then _ fun rtn => .ite ?_ (.pure _)
            exact .lift_then _ fun _ => ih true r.2

theorem erases_arrayLoop {itemLog : ValueScanLog} {item : ValueScan}
    (hvalue : ∀ location mem, Erases (itemLog location mem) (item location mem))
    (base size itemSize n idx : Nat) (rtn : Bool) (mem : Memory) :
    Erases (arrayLoopLog itemLog skip fuel base size itemSize n idx rtn mem)
      (arrayLoop item skip fuel base size itemSize n idx rtn mem) := by
  induction n generalizing idx rtn mem with
  | zero => exact .pure _
  | succ n ih =>
      refine .lift_then _ fun _ => .lift_then _ fun c => .ite (.ite ?_ (.ite ?_ ?_)) (.pure _)
      · exact .lift_then _ fun _ => ih idx rtn mem
      · refine (hvalue (base + idx) mem).bind fun r => ?_
        exact .ite (ih (idx + itemSize) true r.2) (.pure _)
      · exact .lift_then _ fun rtn => .ite (ih idx true mem) (.pure _)

theorem erases_columnLoop (columns : List Member) (n col : Nat) (map : List (Option Member)) :
    Erases (columnLoopLog fl columns fuel n col map) (columnLoop fl columns fuel n col map) := by
  induction n generalizing col map with
  | zero => exact .pure _
  | succ n ih =>
      refine .lift_then _ fun r => ?_
      obtain ⟨found, buf⟩ := r
      refine .ite ?_ (.pure _)
      cases findMember columns buf with
      | none => exact ih (col + 1) map
      | some m => exact .event_then _ (ih (col + 1) (map.set col (some m)))

theorem erases_fieldLoop
    (hvalue : ∀ type location mem, Erases (valueLog type location mem) (value type location mem))
    (full : Bool) (maxcol col : Nat) (map : List (Option Member)) (rtn : Bool) (mem : Memory) :
    Erases (fieldLoopLog valueLog skip fuel location full maxcol col map rtn mem)
      (fieldLoop value skip fuel location full map rtn mem) := by
  induction map generalizing col rtn mem with
  | nil =>
      rw [fieldLoopLog, fieldLoop]
      split
      · exact .event_then _ (.pure _)
      · exact .pure _
  | cons x map ih =>
      rw [fieldLoopLog, fieldLoop]
      refine .event_then col ?_
      cases if full then none else x with
      | none => exact .lift_then _ fun _ => .ite (ih (col + 1) true mem) (.pure _)
      | some m =>
          refine .lift_then _ fun _ => (hvalue m.2.1 (location + m.2.2) mem).bind fun r => ?_
          exact .ite (ih (col + 1) true r.2) (.pure _)

theorem erases_rowLoop
    (hvalue : ∀ type location mem, Erases (valueLog type location mem) (value type location mem))
    (rowSize maxrows maxcol : Nat) (map : List (Option Member)) (n row location : Nat) (rtn : Bool)
    (mem : Memory) :
    Erases (rowLoopLog fl valueLog skip fuel rowSize maxrows maxcol map n row location rtn mem)
      (rowLoop fl value skip fuel rowSize maxrows map n row location rtn mem) := by
  induction n generalizing row location rtn mem with
  | zero => exact .pure _
  | succ n ih =>
      refine .lift_then _ fun _ => .ite ?_ (.pure _)
      exact (erases_fieldLoop hvalue _ maxcol 0 map rtn mem).bind fun r => ih _ _ r.1 r.2

theorem erases_scanValue
    (hvalue : ∀ type location mem, Erases (valueLog type location mem) (value type location mem))
    (type : Ty) (location : Nat) (c : Int) (mem : Memory) :
    Erases (scanValueLog fl valueLog skip fuel type location c mem)
      (scanValue fl value skip fuel type location c mem) := by
  cases type with
  | tStruct size members check =>
      refine .ite (.lift_then _ fun _ => ?_) (.pure _)
      exact (erases_structLoop hvalue members fuel true mem).bind fun r =>
        .lift_then _ fun _ => .pure _
  | tVarray size subtype check =>
      refine .ite (.lift_then _ fun _ => ?_) (.pure _)
      exact (erases_arrayLoop (hvalue subtype) _ size _ fuel 0 true mem).bind fun r =>
        .lift_then _ fun _ => .pure _
  | tArray size subtype check =>
      refine .ite (.lift_then _ fun _ => ?_) (.pure _)
      exact (erases_arrayLoop (hvalue subtype) _ size _ fuel 0 true mem).bind fun r =>
        .lift_then _ fun _ => .pure _
  | tTable size rowSize columns check =>
      refine .ite (.lift_then _ fun _ => ?_) (.pure _)
      refine (erases_columnLoop columns fuel 0 _).bind fun r => ?_
      refine (erases_rowLoop hvalue rowSize _ r.1 _ fuel 0 _ true mem).bind fun r => ?_
      exact .lift_then _ fun _ => .pure _
  | tBool size check => exact .lift _
  | tInteger what size check => exact .lift _
  | tDouble size check => exact .lift _
  | tFloat size check => exact .lift _
  | tString size check => exact .lift _

end

/-- Without its log it is `nk_fscan_keyval`. -/
theorem erases_keyval (fl : Floats) (fuel : Nat) (type : Ty) (location : Nat) (mem : Memory) :
    Erases (nkFscanKeyvalLog fl fuel type location mem)
      (nkFscanKeyval fl fuel type location mem) := by
  induction fuel generalizing type location mem with
  | zero => exact .pure _
  | succ fuel ih =>
      refine .orRewind (.lift_then _ fun c => ?_)
      exact (erases_scanValue ih type location c mem).bind fun r => .pure _

/-! ## The names of a header -/

/-- Where a name of a header ends, by the format ` %i %e`: an identifier or a quoted string,
between blanks. -/
def nameEnd (text : List UInt8) (pos : Nat) : Option Nat :=
  (tokenAt isIdentStart isIdentChar text (pos + (run nkIsspace text pos).length) (-1)).map
    fun stop => stop + (run nkIsspace text stop).length

/-- Where so many names end. -/
def namesEnd (text : List UInt8) : Nat → Nat → Option Nat
  | 0, pos => some pos
  | n + 1, pos => (nameEnd text pos).bind (namesEnd text n)

/-- No header has more names than there is space for in `map`. -/
def HeadersFit (text : List UInt8) : Prop :=
  ∀ pos < text.length, charAt text pos = ch '(' →
    namesEnd text (nkdbaseMaxCols + 1) (pos + 1) = none

section
variable {text : List UInt8} {pos stop : Nat}

theorem closing_bounds {q : Quoting} {chars : List UInt8}
    (h : Text.closing q chars pos = some stop) : pos < stop ∧ stop ≤ pos + chars.length := by
  induction chars generalizing q pos with
  | nil => cases h
  | cons c rest ih =>
      rw [Text.closing] at h
      rw [List.length_cons]
      split at h
      · obtain rfl := Option.some.inj h
        omega
      · have hrest := ih h
        omega

theorem tokenAt_bounds {startOk charOk : Int → Bool} {width : Int} (hpos : pos ≤ text.length)
    (h : tokenAt startOk charOk text pos width = some stop) : pos < stop ∧ stop ≤ text.length := by
  unfold tokenAt at h
  by_cases hquote : charAt text pos = ch '"'
  · rw [if_pos hquote] at h
    have hlt : pos < text.length := (charAt_ne_end hpos).mp (by rw [hquote]; decide)
    have hbounds := closing_bounds h
    rw [List.length_drop] at hbounds
    omega
  · rw [if_neg hquote] at h
    dsimp only at h
    have hfield := field_length_le width (tokenChars startOk charOk text pos)
    have hrun : pos + (tokenChars startOk charOk text pos).length ≤ text.length := by
      unfold tokenChars
      split
      · exact run_length_le hpos
      · exact hpos
    split at h
    · cases h
    · rename_i hsome
      obtain rfl := Option.some.inj h
      have hlength := List.length_pos_of_ne_nil hsome
      omega

theorem nameEnd_bounds (hpos : pos ≤ text.length) (h : nameEnd text pos = some stop) :
    pos < stop ∧ stop ≤ text.length := by
  obtain ⟨behind, htoken, rfl⟩ := Option.map_eq_some_iff.mp h
  have hblanks : pos + (run nkIsspace text pos).length ≤ text.length := run_length_le hpos
  obtain ⟨hlt, hle⟩ := tokenAt_bounds hblanks htoken
  have hafter : behind + (run nkIsspace text behind).length ≤ text.length := run_length_le hle
  omega

theorem namesEnd_bounds {n : Nat} (hpos : pos ≤ text.length)
    (h : namesEnd text n pos = some stop) : pos + n ≤ stop ∧ stop ≤ text.length := by
  induction n generalizing pos with
  | zero =>
      obtain rfl := Option.some.inj h
      exact ⟨Nat.le_refl pos, hpos⟩
  | succ n ih =>
      obtain ⟨next, hname, hrest⟩ := Option.bind_eq_some_iff.mp h
      obtain ⟨hlt, hle⟩ := nameEnd_bounds hpos hname
      have hbounds := ih hle hrest
      omega

/-- A header with more names has so many. -/
theorem namesEnd_isSome_of_le {m n : Nat} (hle : m ≤ n) (h : (namesEnd text n pos).isSome) :
    (namesEnd text m pos).isSome := by
  induction m generalizing n pos with
  | zero => rfl
  | succ m ih =>
      obtain ⟨n, rfl⟩ := Nat.exists_eq_add_of_le' (Nat.le_trans (Nat.succ_pos m) hle)
      rw [namesEnd, Option.isSome_bind] at h ⊢
      cases hname : nameEnd text pos with
      | none =>
          rw [hname] at h
          cases h
      | some next =>
          rw [hname] at h
          exact ih (Nat.le_of_succ_le_succ hle) h

/-- In a text whose headers fit the columns of a header are within `map`. -/
theorem HeadersFit.lt (hfit : HeadersFit text) {n col : Nat}
    (hopen : charAt text pos = ch '(') (hnames : (namesEnd text n (pos + 1)).isSome)
    (hcol : col < n) : col < nkdbaseMaxCols := by
  by_contra hge
  have hlt : pos < text.length := by
    by_contra hend
    have hchar : charAt text pos = -1 := Cursor.peek_of_le (Nat.le_of_not_lt hend)
    exact absurd (hchar.symm.trans hopen) (by decide)
  have hsome := namesEnd_isSome_of_le (by omega : nkdbaseMaxCols + 1 ≤ n) hnames
  rw [hfit pos hlt hopen] at hsome
  cases hsome

end

section
variable {fl : Floats} {text : List UInt8} {pos fuel : Nat}

variable (fl) in
/-- The scan for the next name of a header. -/
theorem stays_name (hfuel : text.length ≤ fuel) :
    Stays text (nkFscanBuf fl fuel " %i %e" nkdbaseMaxIdentLen) pos
      (Outcome ((nameEnd text pos).map fun stop => (stop, ())) (fun _ r => r.1 = true)
        fun r pos' => r.1 = false ∧ pos' = pos) := by
  have hscan : Stays text (scanDirectives fl fuel false [.blank, .ident (-1), .blank, .succeed]
      [.buf nkdbaseMaxIdentLen] [] fun _ => 0) pos
      (Outcome ((nameEnd text pos).map fun stop => (stop, ())) (fun _ r => r.1 = true)
        fun r _ => r.1 = false) := by
    refine .bind (stays_ws_run hfuel) fun _ pos₁ hpos₁ => ?_
    subst hpos₁
    refine .bind (stays_tokenAt (by decide) hfuel false (-1) nkdbaseMaxIdentLen)
      fun r pos₂ hr => ?_
    obtain ⟨found, buf⟩ := r
    unfold nameEnd
    cases htoken : tokenAt isIdentStart isIdentChar text
        (pos + (run nkIsspace text pos).length) (-1) with
    | none =>
        rw [htoken] at hr
        obtain ⟨hfound, -⟩ := hr
        dsimp only at hfound
        subst hfound
        exact .pure rfl
    | some stop =>
        rw [htoken] at hr
        obtain ⟨hfound, rfl⟩ := hr
        dsimp only at hfound
        subst hfound
        refine .bind (stays_ws_run hfuel) fun _ pos₃ hpos₃ => ?_
        exact .pure ⟨rfl, hpos₃⟩
  have hvscan : Stays text (nkVscan fl fuel false " %i %e" [.buf nkdbaseMaxIdentLen] fun _ => 0)
      pos (Outcome ((nameEnd text pos).map fun stop => (stop, ())) (fun _ r => r.1 = true)
        fun r pos' => r.1 = false ∧ pos' = pos) :=
    Stays.orRewind_outcome hscan (fun _ _ h => h) fun _ h => h
  refine .bind hvscan fun r pos' hr => ?_
  obtain ⟨status, out, mem⟩ := r
  dsimp only
  split
  · exact .pure hr
  · exact .pure hr

end

/-! ## The columns that are logged -/

mutual

/-- How many values a value of a type can be within. -/
def Ty.levels : Ty → Nat
  | .tStruct _ members _ | .tTable _ _ members _ => membersLevels members + 1
  | .tArray _ subtype _ | .tVarray _ subtype _ => subtype.levels + 1
  | .tBool _ _ | .tInteger _ _ _ | .tDouble _ _ | .tFloat _ _ | .tString _ _ => 1

/-- The most of some members. -/
def membersLevels : List Member → Nat
  | [] => 0
  | (_, type, _) :: members => max type.levels (membersLevels members)

end

theorem levels_le_membersLevels {m : Member} {members : List Member} (h : m ∈ members) :
    m.2.1.levels ≤ membersLevels members := by
  induction members with
  | nil => cases h
  | cons m' members ih =>
      obtain ⟨name, type, offset⟩ := m'
      rw [membersLevels]
      rcases List.mem_cons.mp h with rfl | hrest
      · exact Nat.le_max_left _ _
      · exact (ih hrest).trans (Nat.le_max_right _ _)

theorem Ty.levels_pos (type : Ty) : 0 < type.levels := by
  cases type <;> exact Nat.succ_pos _

section
variable {fl : Floats} {text : List UInt8} {pos fuel location : Nat} {mem : Memory}

theorem stays_save {save : Number fl → Memory} {scan : FileProg (Bool × Option (Number fl))}
    (hscan : Stays text scan pos fun _ _ => True) :
    Stays text (saveNumber fl save mem scan) pos fun _ _ => True := by
  refine .bind hscan fun r pos' _ => ?_
  obtain ⟨sta, num⟩ := r
  cases num with
  | none => exact .pure trivial
  | some num => exact .pure trivial

theorem stays_quoted {size : Nat} (hopen : charAt text pos = ch '"') :
    Stays text (scanString fuel size location mem) pos fun _ _ => True := by
  refine .nextFast (by rw [hopen]; decide) ?_
  refine .bind (stays_stringLoop _ fuel (pos + 1) (Nat.zero_le _)) fun r pos' hr => ?_
  obtain ⟨c, s⟩ := r
  obtain ⟨-, hquote⟩ := hr
  by_cases hclose : c = ch '"'
  · simp only [if_pos hclose]
    exact .nextFast (hquote hclose) (.pure trivial)
  · simp only [if_neg hclose]
    exact .pure trivial

end

section
variable {fl : Floats} {text : List UInt8} {good : Nat → Prop} {valueLog : Ty → ValueScanLog}
  {skip : FileProg Bool} {pos fuel : Nat}

/-- The parser for a type logs good columns only, on the text from any position. -/
def LogsGood (text : List UInt8) (good : Nat → Prop) (value : ValueScanLog) : Prop :=
  ∀ location mem pos, Logs text good (value location mem) pos fun _ _ => True

theorem logs_structLoop (hscan : fl.Stays) {members : List Member}
    (hvalue : ∀ m ∈ members, LogsGood text good (valueLog m.2.1))
    (hskip : ∀ pos, Stays text skip pos fun _ _ => True) (location n : Nat) (rtn : Bool)
    (mem : Memory) :
    Logs text good (structLoopLog fl valueLog skip fuel members location n rtn mem) pos
      fun _ _ => True := by
  induction n generalizing pos rtn mem with
  | zero => exact .pure trivial
  | succ n ih =>
      refine .lift_then (stays_ws fuel) fun _ pos₁ _ => ?_
      refine .lift_then (stays_fscanBuf hscan fuel "%i : %e" nkdbaseMaxIdentLen) fun r pos₂ _ => ?_
      obtain ⟨found, buf⟩ := r
      refine .ite (fun _ => ?_) fun _ => .pure trivial
      have hrest : ∀ rtn mem pos, Logs text good
          (do
            commaLoop fl fuel fuel
            structLoopLog fl valueLog skip fuel members location n rtn mem)
          pos fun _ _ => True := fun rtn mem pos =>
        .lift_then (stays_commaLoop hscan fuel fuel) fun _ _ _ => ih rtn mem
      split
      · rename_i name type offset hfound
        have hm := findMember_mem hfound
        refine (hvalue _ hm (location + offset) mem pos₂).bind fun r pos₃ _ => ?_
        refine .ite (fun _ => hrest true r.2 pos₃) fun _ => ?_
        exact .test (hskip pos₃) (hrest true r.2) fun _ => .pure trivial
      · exact .lift_then (hskip pos₂) fun _ pos₃ _ => hrest rtn mem pos₃

theorem logs_arrayLoop {itemLog : ValueScanLog} (hvalue : LogsGood text good itemLog)
    (hskip : ∀ pos, Stays text skip pos fun _ _ => True) (base size itemSize n idx : Nat)
    (rtn : Bool) (mem : Memory) :
    Logs text good (arrayLoopLog itemLog skip fuel base size itemSize n idx rtn mem) pos
      fun _ _ => True := by
  induction n generalizing pos idx rtn mem with
  | zero => exact .pure trivial
  | succ n ih =>
      refine .lift_then (stays_ws fuel) fun _ pos₁ _ => ?_
      refine .peek (.ite (fun hmore => ?_) fun _ => .pure trivial)
      refine .ite (fun _ => ?_) fun _ => .ite (fun _ => ?_) fun _ => ?_
      · exact .nextFast hmore.1 fun _ => ih idx rtn mem
      · refine (hvalue (base + idx) mem _).bind fun r pos₃ _ => ?_
        exact .ite (fun _ => ih (idx + itemSize) true r.2) fun _ => .pure trivial
      · exact .test (hskip _) (fun _ => ih idx true mem) fun _ => .pure trivial

/-- The columns of a header: as many as there are names. -/
theorem logs_columnLoop (hfuel : text.length ≤ fuel) {columns : List Member} (n col : Nat)
    {map : List (Option Member)} (hmap : ∀ m, some m ∈ map → m ∈ columns)
    (hgood : ∀ k, (namesEnd text k pos).isSome → ∀ c < k, good (col + c)) :
    Logs text good (columnLoopLog fl columns fuel n col map) pos fun r _ =>
      (∀ c, col ≤ c → c < r.1 → good c) ∧ ∀ m, some m ∈ r.2 → m ∈ columns := by
  induction n generalizing pos col map with
  | zero => exact .pure ⟨fun c hle hlt => absurd hlt (Nat.not_lt.mpr hle), hmap⟩
  | succ n ih =>
      refine .lift_then (stays_name fl hfuel) fun r pos₁ hr => ?_
      obtain ⟨found, buf⟩ := r
      cases hname : nameEnd text pos with
      | none =>
          rw [hname] at hr
          obtain ⟨hfound, -⟩ := hr
          refine .ite (fun htrue => ?_) fun _ =>
            .pure ⟨fun c hle hlt => absurd hlt (Nat.not_lt.mpr hle), hmap⟩
          exact absurd (hfound.symm.trans htrue) Bool.false_ne_true
      | some stop =>
          rw [hname] at hr
          obtain ⟨hfound, rfl⟩ := hr
          have hcol : good col := by
            refine hgood 1 ?_ 0 Nat.one_pos
            rw [namesEnd, hname]
            rfl
          have hnext : ∀ k, (namesEnd text k pos₁).isSome → ∀ c < k, good (col + 1 + c) := by
            intro k hk c hc
            have hmore : (namesEnd text (k + 1) pos).isSome := by
              rw [namesEnd, hname]
              exact hk
            have hlog := hgood (k + 1) hmore (c + 1) (Nat.succ_lt_succ hc)
            rwa [Nat.add_comm c 1, ← Nat.add_assoc] at hlog
          have hrest : ∀ map' : List (Option Member), (∀ m, some m ∈ map' → m ∈ columns) →
              Logs text good (columnLoopLog fl columns fuel n (col + 1) map') pos₁ fun r _ =>
                (∀ c, col ≤ c → c < r.1 → good c) ∧ ∀ m, some m ∈ r.2 → m ∈ columns := by
            intro map' hmap'
            refine (ih (col + 1) hmap' hnext).mono fun r _ h => ⟨fun c hle hlt => ?_, h.2⟩
            rcases Nat.eq_or_lt_of_le hle with rfl | hlater
            · exact hcol
            · exact h.1 c hlater hlt
          refine .ite (fun _ => ?_) fun hfalse => absurd hfound hfalse
          split
          · rename_i m hm
            refine .event_then hcol (hrest _ fun m' hm' => ?_)
            rcases List.mem_or_eq_of_mem_set hm' with hm' | hm'
            · exact hmap m' hm'
            · cases hm'
              exact findMember_mem hm
          · exact hrest map hmap

/-- A row: the columns of the header. -/
theorem logs_fieldLoop {columns : List Member}
    (hvalue : ∀ m ∈ columns, LogsGood text good (valueLog m.2.1))
    (hskip : ∀ pos, Stays text skip pos fun _ _ => True) (location : Nat) (full : Bool)
    {maxcol : Nat} (hgood : ∀ c < maxcol, good c) {col : Nat} {map : List (Option Member)}
    (hmap : ∀ m, some m ∈ map → m ∈ columns) (hlength : col + map.length ≤ maxcol) (rtn : Bool)
    (mem : Memory) :
    Logs text good (fieldLoopLog valueLog skip fuel location full maxcol col map rtn mem) pos
      fun _ _ => True := by
  induction map generalizing pos col rtn mem with
  | nil =>
      rw [fieldLoopLog]
      exact .ite (fun hlt => .event_then (hgood col hlt) (.pure trivial)) fun _ => .pure trivial
  | cons x map ih =>
      rw [List.length_cons] at hlength
      have hmap' : ∀ m, some m ∈ map → m ∈ columns := fun m hm =>
        hmap m (List.mem_cons_of_mem x hm)
      have hrest : ∀ mem pos, Logs text good
          (fieldLoopLog valueLog skip fuel location full maxcol (col + 1) map true mem) pos
          fun _ _ => True := fun mem pos => ih hmap' (by omega) true mem
      rw [fieldLoopLog]
      refine .event_then (hgood col (by omega)) ?_
      cases hx : if full then none else x with
      | none => exact .test (hskip pos) (hrest mem) fun _ => .pure trivial
      | some m =>
          have hm : m ∈ columns := by
            cases full with
            | true => cases hx
            | false => exact hmap m (hx ▸ List.mem_cons_self)
          refine .lift_then (stays_ws fuel) fun _ pos₁ _ => ?_
          refine (hvalue m hm (location + m.2.2) mem pos₁).bind fun r pos₂ _ => ?_
          exact .ite (fun _ => hrest r.2 pos₂) fun _ => .pure trivial

theorem logs_rowLoop (hscan : fl.Stays) {columns : List Member}
    (hvalue : ∀ m ∈ columns, LogsGood text good (valueLog m.2.1))
    (hskip : ∀ pos, Stays text skip pos fun _ _ => True) (rowSize maxrows : Nat) {maxcol : Nat}
    (hgood : ∀ c < maxcol, good c) {map : List (Option Member)}
    (hmap : ∀ m, some m ∈ map → m ∈ columns) (hlength : map.length ≤ maxcol)
    (n row location : Nat) (rtn : Bool) (mem : Memory) :
    Logs text good
      (rowLoopLog fl valueLog skip fuel rowSize maxrows maxcol map n row location rtn mem) pos
      fun _ _ => True := by
  induction n generalizing pos row location rtn mem with
  | zero => exact .pure trivial
  | succ n ih =>
      refine .test (stays_fscan hscan fuel " : %e") (fun pos₁ => ?_) fun _ => .pure trivial
      refine (logs_fieldLoop hvalue hskip location _ hgood hmap ?_ rtn mem).bind
        fun r pos₂ _ => ih _ _ r.1 r.2
      rw [Nat.zero_add]
      exact hlength

/-- The columns of the headers of a text are good. -/
def HeadersGood (text : List UInt8) (good : Nat → Prop) : Prop :=
  ∀ pos, charAt text pos = ch '(' → ∀ n, (namesEnd text n (pos + 1)).isSome → ∀ c < n, good c

theorem logs_scanValue (hscan : fl.Stays) (hfuel : text.length ≤ fuel) (type : Ty)
    (hvalue : ∀ part : Ty, part.levels < type.levels → LogsGood text good (valueLog part))
    (hskip : ∀ pos, Stays text skip pos fun _ _ => True) (hgood : HeadersGood text good)
    (location : Nat) (mem : Memory) :
    Logs text good (scanValueLog fl valueLog skip fuel type location (charAt text pos) mem) pos
      fun _ _ => True := by
  have hmembers : ∀ (members : List Member), membersLevels members + 1 = type.levels →
      ∀ m ∈ members, LogsGood text good (valueLog m.2.1) := fun members h m hm =>
    hvalue m.2.1 (h ▸ Nat.lt_succ_of_le (levels_le_membersLevels hm))
  cases type with
  | tBool size check =>
      refine .lift (.test (stays_fscan hscan fuel "true %e") (fun _ => .pure trivial) fun _ => ?_)
      exact .test (stays_fscan hscan fuel "false %e") (fun _ => .pure trivial) fun _ =>
        .pure trivial
  | tInteger what size check => exact .lift (stays_save (stays_intNumber hscan fuel))
  | tDouble size check => exact .lift (stays_save (stays_doubleNumber hscan fuel))
  | tFloat size check => exact .lift (stays_save (stays_floatNumber hscan fuel))
  | tString size check =>
      refine .lift ?_
      rw [scanValue]
      by_cases hopen : charAt text pos = ch '"'
      · rw [if_pos hopen]
        exact stays_quoted hopen
      · rw [if_neg hopen]
        exact .pure trivial
  | tStruct size members check =>
      refine .ite (fun hopen => .nextFast (by rw [hopen]; decide) fun _ => ?_) fun _ =>
        .pure trivial
      refine (logs_structLoop hscan (hmembers members rfl) hskip location fuel true mem).bind
        fun r pos₁ _ => ?_
      exact .lift_then (stays_closing (by decide) r.1) fun _ _ _ => .pure trivial
  | tVarray size subtype check =>
      refine .ite (fun hopen => .nextFast (by rw [hopen]; decide) fun _ => ?_) fun _ =>
        .pure trivial
      refine (logs_arrayLoop (hvalue subtype (Nat.lt_succ_self _)) hskip _ size _ fuel 0 true
        mem).bind fun r pos₁ _ => ?_
      exact .lift_then (stays_closing (by decide) r.1) fun _ _ _ => .pure trivial
  | tArray size subtype check =>
      refine .ite (fun hopen => .nextFast (by rw [hopen]; decide) fun _ => ?_) fun _ =>
        .pure trivial
      refine (logs_arrayLoop (hvalue subtype (Nat.lt_succ_self _)) hskip _ size _ fuel 0 true
        mem).bind fun r pos₁ _ => ?_
      exact .lift_then (stays_closing (by decide) r.1) fun _ _ _ => .pure trivial
  | tTable size rowSize columns check =>
      refine .ite (fun hopen => .nextFast (by rw [hopen]; decide) fun _ => ?_) fun _ =>
        .pure trivial
      refine (logs_columnLoop hfuel fuel 0 (fun m hm => ?_) fun n hn c hc => ?_).bind
        fun r pos₁ hr => ?_
      · cases List.eq_of_mem_replicate hm
      · rw [Nat.zero_add]
        exact hgood pos hopen n hn c hc
      · refine (logs_rowLoop hscan (hmembers columns rfl) hskip rowSize (size / rowSize)
          (fun c hc => hr.1 c (Nat.zero_le c) hc) (fun m hm => hr.2 m (List.mem_of_mem_take hm))
          ?_ fuel 0 (location + lenSize) true mem).bind fun r pos₂ _ => ?_
        · rw [List.length_take]
          exact Nat.min_le_left _ _
        · exact .lift_then (stays_fscan hscan fuel " )%e") fun _ _ _ => .pure trivial

/-- `nk_fscan_keyval` on any text, by induction on the levels of the value. -/
theorem logs_keyval (hscan : fl.Stays) (hgood : HeadersGood text good) {type : Ty}
    (hfuel : text.length + type.levels ≤ fuel) :
    LogsGood text good (nkFscanKeyvalLog fl fuel type) := by
  induction fuel generalizing type with
  | zero => exact fun _ _ _ => .pure trivial
  | succ fuel ih =>
      intro location mem pos
      have hpositive := type.levels_pos
      refine .orRewind (.peek ?_)
      refine (logs_scanValue hscan (by omega) type (fun part hpart => ih (by omega))
        (stays_skipValue hscan fuel) hgood location mem).bind fun _ _ _ => .pure trivial

end

/-! ## A header with too many names -/

section
variable {fl : Floats} {text : List UInt8} {pos fuel : Nat}

variable (fl) in
/-- If one of the columns has the name of the last of `k + 1` headers, `map` is written there. -/
theorem reports_columnLoop (hfuel : text.length ≤ fuel) {k : Nat} (hpos : pos ≤ text.length)
    (hnames : (namesEnd text (k + 1) pos).isSome) :
    ∃ buf, ∀ (columns : List Member) (n col : Nat) (map : List (Option Member)),
      (findMember columns buf).isSome → k < n →
      Reports text (fun c => c = col + k) (columnLoopLog fl columns fuel n col map) pos := by
  induction k generalizing pos with
  | zero =>
      obtain ⟨⟨found, buf⟩, pos₁, -, hr, hexact⟩ := (stays_name fl hfuel).exact hpos
      cases hname : nameEnd text pos with
      | none =>
          rw [namesEnd, hname] at hnames
          cases hnames
      | some stop =>
          rw [hname] at hr
          obtain ⟨hfound, -⟩ := hr
          dsimp only at hfound
          subst hfound
          refine ⟨buf, fun columns n col map hfind hk => ?_⟩
          obtain ⟨n, rfl⟩ := Nat.exists_eq_add_of_le' hk
          obtain ⟨m, hm⟩ := Option.isSome_iff_exists.mp hfind
          refine .behind (.lift hexact) fun r pos' hr => ?_
          obtain ⟨rfl, rfl⟩ := hr
          simp only [if_true, hm]
          exact .event _ rfl
  | succ k ih =>
      obtain ⟨⟨found, buf₀⟩, pos₁, hpos₁, hr, hexact⟩ := (stays_name fl hfuel).exact hpos
      cases hname : nameEnd text pos with
      | none =>
          rw [namesEnd, hname] at hnames
          cases hnames
      | some stop =>
          rw [hname] at hr
          obtain ⟨hfound, rfl⟩ := hr
          dsimp only at hfound
          subst hfound
          rw [namesEnd, hname] at hnames
          obtain ⟨buf, hbuf⟩ := ih hpos₁ hnames
          refine ⟨buf, fun columns n col map hfind hk => ?_⟩
          obtain ⟨n, rfl⟩ := Nat.exists_eq_add_of_le' (Nat.le_trans (Nat.succ_pos _) hk)
          refine .behind (.lift hexact) fun r pos' hr => ?_
          obtain ⟨rfl, rfl⟩ := hr
          rw [Nat.add_comm k 1, ← Nat.add_assoc]
          have hlast : k < n := Nat.lt_of_succ_lt_succ hk
          simp only [if_true]
          split
          · exact .event_then (hbuf columns n (col + 1) _ hfind hlast)
          · exact hbuf columns n (col + 1) map hfind hlast

/-- A table of one column. -/
def oneColumn (name : List UInt8) : Ty :=
  .tTable 4 4 [(name, .tInteger .tInt 4 none, 0)] none

variable (fl) in
/-- For a header that does not fit there is such a table whose parser writes behind the end of
`map`. -/
theorem reports_keyval (hfuel : text.length ≤ fuel) (hpos : pos < text.length)
    (hopen : charAt text pos = ch '(')
    (hnames : (namesEnd text (nkdbaseMaxCols + 1) (pos + 1)).isSome) :
    ∃ name, ∀ location mem, Reports text (fun col => col = nkdbaseMaxCols)
      (nkFscanKeyvalLog fl (fuel + 1) (oneColumn name) location mem) pos := by
  obtain ⟨stop, hstop⟩ := Option.isSome_iff_exists.mp hnames
  obtain ⟨hlow, hhigh⟩ := namesEnd_bounds hpos hstop
  obtain ⟨buf, hbuf⟩ := reports_columnLoop fl hfuel hpos hnames
  refine ⟨cString buf, fun location mem => ?_⟩
  let columns : List Member := [(cString buf, .tInteger .tInt 4 none, 0)]
  have hfind : (findMember columns buf).isSome := by simp [columns, findMember]
  have hheader := hbuf columns fuel 0 (List.replicate nkdbaseMaxCols none) hfind (by omega)
  rw [Nat.zero_add] at hheader
  have hnext : charAt text pos ≠ -1 := by
    rw [hopen]
    decide
  refine .orRewind (.behind .fpeek fun c pos' hc => ?_)
  obtain ⟨rfl, rfl⟩ := hc
  refine .first _ (.taken hopen ?_)
  refine .behind (.fnextFast hnext) fun c pos' hpos' => ?_
  subst hpos'
  exact hheader.first _

end

/-! ## The accesses of the map -/

/-- Whatever is read from any position of a file, for every type of tables with no more columns
than `map`: every access of `nk_fscan_keyval` to `map` is within it. -/
def MapInRange {w : Nat} (fl : Floats) (text : List UInt8) (f : Nkinfile w) : Prop :=
  ∀ pos ≤ text.length, ∀ (size rowSize : Nat) (columns : List Member) (check : Check),
    columns.length ≤ nkdbaseMaxCols →
    ∀ fuel, text.length + (Ty.tTable size rowSize columns check).levels ≤ fuel →
    ∀ location mem, ∃ r log f',
      (nkFscanKeyval fl fuel (.tTable size rowSize columns check) location mem).run (nkinfile w)
        (nkFseek f pos).2 = some (r, f') ∧
      (nkFscanKeyvalLog fl fuel (.tTable size rowSize columns check) location mem).run.run
        (nkinfile w) (nkFseek f pos).2 = some ((r, log), f') ∧
      ∀ col ∈ log, col < nkdbaseMaxCols

section
variable {w : Nat} {fl : Floats} {text : List UInt8} {pos : Nat} {f : Nkinfile w}

/-- With a header that does not fit there is an access behind the end. -/
theorem MapInRange.headersFit (hrange : MapInRange fl text f) (hscan : fl.Stays)
    (agrees : Agrees f ⟨text, pos⟩) : HeadersFit text := by
  intro start hstart hopen
  by_contra hnames
  rw [← ne_eq, Option.ne_none_iff_isSome] at hnames
  obtain ⟨name, hname⟩ := reports_keyval fl (Nat.le_succ text.length) hstart hopen hnames
  have hlogs : LogsGood text (fun _ => True)
      (nkFscanKeyvalLog fl (text.length + 2) (oneColumn name)) :=
    logs_keyval hscan (fun _ _ _ _ _ _ => trivial) (Nat.le_refl _)
  obtain ⟨r, log, f', -, hrun, hgood⟩ := hrange start hstart.le 4 4
    [(name, .tInteger .tInt 4 none, 0)] none (Nat.le_add_left 1 19) (text.length + 2)
    (Nat.le_refl _) 0 fun _ => 0
  obtain ⟨r', f'', hrun', col, hcol, rfl⟩ := (hname 0 fun _ => 0).run (hlogs 0 (fun _ => 0) start)
    (agrees.nkFseek_spec hstart.le).2
  cases hrun.symm.trans hrun'
  exact Nat.lt_irrefl _ (hgood _ hcol)

/-- For every text: all accesses to `map` are within it exactly if no header in the text has
more names than there is space for. -/
theorem mapInRange_iff (hscan : fl.Stays) (agrees : Agrees f ⟨text, pos⟩) :
    MapInRange fl text f ↔ HeadersFit text := by
  refine ⟨fun hrange => hrange.headersFit hscan agrees, ?_⟩
  intro hfit start hstart size rowSize columns check _ fuel hfuel location mem
  have hgood : HeadersGood text (· < nkdbaseMaxCols) := fun _ hopen _ hnames _ hcol =>
    hfit.lt hopen hnames hcol
  obtain ⟨⟨r, log⟩, f', pos', hrun, -, hlogged, -⟩ := (logs_keyval hscan hgood hfuel location mem
    start).run (agrees.nkFseek_spec hstart).2
  exact ⟨r, log, f', (erases_keyval fl fuel _ location mem).run hrun, hrun, hlogged⟩

end

/-- A table of two columns, with `fstrtod` for the numbers. -/
theorem mapInRange_two :
    let fl : Floats := { Floats.absent with scan := nkFscanDouble 99 (fun _ _ => ()) () }
    let text : List UInt8 := ascii "(a b : 1 2 : 3 4)"
    MapInRange fl text (nkinfileOpenMem 32 (text ++ []) text.length) := by
  intro fl text
  have hsize : text.length < 2 ^ 32 := by decide +kernel
  refine (mapInRange_iff (Floats.stays_fstrtod .absent 99 (fun _ _ => ()) ())
    (nkinfileOpenMem_agrees text [] hsize)).mpr ?_
  unfold HeadersFit
  decide +kernel

/-- A header of 21 names. -/
theorem not_mapInRange_header :
    let fl : Floats := { Floats.absent with scan := nkFscanDouble 99 (fun _ _ => ()) () }
    let text : List UInt8 := ascii "(a a a a a a a a a a a a a a a a a a a a a :)"
    ¬ MapInRange fl text (nkinfileOpenMem 32 (text ++ []) text.length) := by
  intro fl text hrange
  have hsize : text.length < 2 ^ 32 := by decide +kernel
  have hfit := hrange.headersFit (Floats.stays_fstrtod .absent 99 (fun _ _ => ()) ())
    (nkinfileOpenMem_agrees text [] hsize)
  have hnames := hfit 0 (by decide +kernel) (by decide +kernel)
  revert hnames
  decide +kernel

end LibnklabsPico.Dbase
