/-
  Dbase/Pretty.lean --- the printer for people, `nk_dbase_fprint` of
  `libnklabs/src/nkserialize.c`.

  It puts the same layout as the serializer with other whitespace
  (`nkDbaseFprint_eq`), so the parser reads both back to the same value
  (`nkVscan_fprint`).
-/
import LibnklabsPico.Dbase.RoundTrip

set_option autoImplicit false

namespace LibnklabsPico.Dbase

open LibnklabsPico.Foundation
open LibnklabsPico.File
open LibnklabsPico.Text

variable {fl : Floats} {charSigned : Bool} {mem : Memory} {fuel : Nat}

/-! ## Print a database for people -/

section
variable (fl : Floats)

/-- The number in `sbuf`, with a decimal point: `%g` will omit it if it can. -/
def withPoint (sbuf : List UInt8) : List UInt8 :=
  if sbuf.any fun c => (c.toNat : Int) == ch '.' || (c.toNat : Int) == ch 'e' then sbuf
  else sbuf ++ ascii ".0"

/-- The items of an array, `size` bytes apart, each with what ends it. -/
def fprintItems (item : Nat → List UInt8 → List UInt8) (size : Nat) (ind : Int) :
    Nat → Nat → List UInt8
  | 0, _ => []
  | count + 1, location =>
      nkFindent (ind + 2) ++ item location (if count = 0 then ascii "\n" else ascii ",\n") ++
        fprintItems item size ind count (location + size)

/-- The rows of a table, `size` bytes apart. -/
def fprintRows (row : Nat → List UInt8) (size : Nat) (ind : Int) : Nat → Nat → List UInt8
  | 0, _ => []
  | count + 1, location =>
      nkFindent ind ++ nkFprintf fl ":" [] ++ row location ++ nkFprintf fl "\n" [] ++
        fprintRows row size ind count (location + size)

/-- The names of the columns of a table. -/
def fprintHeader (columns : List Member) : List UInt8 :=
  columns.flatMap fun m => nkFprintf fl "\t%s" [.str m.1]

mutual

/-- `nk_dbase_fprint`: the characters it puts, with `ed` behind the value. -/
def nkDbaseFprint (charSigned : Bool) (mem : Memory) :
    Ty → Nat → Int → List UInt8 → List UInt8
  | .tStruct _ members _, location, ind, ed =>
      nkFprintf fl "\x7b\n" [] ++ fprintMembers charSigned mem members location ind ++
        nkFindent ind ++ nkFprintf fl "\x7d%s" [.str ed]
  | .tTable _ rowSize columns _, location, ind, ed =>
      ascii "(" ++ fprintHeader fl columns ++ nkFprintf fl "\n" [] ++
        fprintRows fl (fprintRow charSigned mem columns) rowSize ind (getLen mem location)
          (location + lenSize) ++
        nkFindent ind ++ nkFprintf fl ")%s" [.str ed]
  | .tVarray _ subtype _, location, ind, ed =>
      nkFprintf fl "[\n" [] ++
        fprintItems (fun location => nkDbaseFprint charSigned mem subtype location (ind + 2))
          subtype.size ind (getLen mem location) (location + lenSize) ++
        nkFindent ind ++ nkFprintf fl "]%s" [.str ed]
  | .tArray size subtype _, location, ind, ed =>
      nkFprintf fl "[\n" [] ++
        fprintItems (fun location => nkDbaseFprint charSigned mem subtype location (ind + 2))
          subtype.size ind (size / subtype.size) location ++
        nkFindent ind ++ nkFprintf fl "]%s" [.str ed]
  | .tDouble _ _, location, _, ed =>
      let sbuf := (nkFprintf fl "%g" [.real (fl.getDouble (mem.read location 8))]).take 31
      nkFprintf fl "%s%s" [.str (withPoint sbuf), .str ed]
  | .tFloat _ _, location, _, ed =>
      let sbuf := (nkFprintf fl "%g" [.real (fl.getFloat (mem.read location 4))]).take 31
      nkFprintf fl "%s%s" [.str (withPoint sbuf), .str ed]
  | .tInteger what _ _, location, _, ed =>
      nkFprintf fl (what.format ++ "%s") [.int (what.load charSigned mem location), .str ed]
  | .tBool _ _, location, _, ed =>
      if ofLe (mem.read location 4) ≠ 0 then nkFprintf fl "true%s" [.str ed]
      else nkFprintf fl "false%s" [.str ed]
  | .tString size _, location, _, ed =>
      -- characters are put as in `nk_dbase_serialize`
      ascii "\"" ++ (cString (mem.read location size)).flatMap (serializeChar fl charSigned) ++
        nkFprintf fl "\"%s" [.str ed]

/-- The members of a structure.  A table starts on a line of its own. -/
def fprintMembers (charSigned : Bool) (mem : Memory) : List Member → Nat → Int → List UInt8
  | [], _, _ => []
  | (name, type, offset) :: members, location, ind =>
      let ed := if members.isEmpty then ascii "\n" else ascii ",\n"
      (if type.isTable then
        nkFindent (ind + 2) ++ nkFprintf fl "%s:\n" [.str name] ++ nkFindent (ind + 4) ++
          nkDbaseFprint charSigned mem type (location + offset) (ind + 4) ed
      else
        nkFindent (ind + 2) ++ nkFprintf fl "%s: " [.str name] ++
          nkDbaseFprint charSigned mem type (location + offset) (ind + 2) ed) ++
        fprintMembers charSigned mem members location ind

/-- The fields of one row of a table. -/
def fprintRow (charSigned : Bool) (mem : Memory) : List Member → Nat → List UInt8
  | [], _ => []
  | (_, type, offset) :: columns, location =>
      ascii "\t" ++ nkDbaseFprint charSigned mem type (location + offset) 0 [] ++
        fprintRow charSigned mem columns location

end

end

/-! ## What it puts -/

theorem blank_replicate (n : Nat) : Blank (List.replicate n 32) := by
  intro b hb
  rw [(List.mem_replicate.mp hb).2]
  decide

theorem blank_findent (ind : Int) : Blank (nkFindent ind) := blank_replicate _

theorem blank_tab : Blank [9] := by
  intro b hb
  rw [List.mem_singleton] at hb
  subst hb
  decide

theorem blank_newline : Blank [10] := by
  intro b hb
  rw [List.mem_singleton] at hb
  subst hb
  decide

/-- The whitespace of `nk_dbase_fprint`: a line for each member, item and row, and tabs
between the fields of a row. -/
def Spacing.pretty : Spacing where
  opening := ⟨[10], blank_newline⟩
  before ind := ⟨nkFindent (ind + 2), blank_findent _⟩
  value isTable ind :=
    if isTable then ⟨10 :: nkFindent (ind + 4), blank_append blank_newline (blank_findent _)⟩
    else ⟨[32], blank_space⟩
  next := ⟨[10], blank_newline⟩
  last := ⟨[10], blank_newline⟩
  closing ind := ⟨nkFindent ind, blank_findent _⟩
  nameBefore := ⟨[9], blank_tab⟩
  nameAfter := ⟨[], blank_nil⟩
  heading := ⟨[10], blank_newline⟩
  rowBefore ind := ⟨nkFindent ind, blank_findent _⟩
  rowAfter := ⟨[10], blank_newline⟩
  fieldBefore := ⟨[9], blank_tab⟩
  fieldAfter := ⟨[], blank_nil⟩
  member isTable ind := if isTable then ind + 4 else ind + 2
  item ind := ind + 2
  names_apart := by simp
  fields_apart := by simp

/-- A format that ends with `%s` puts its last argument at the end. -/
theorem nkFprintf_ed (fl : Floats) (ed : List UInt8) :
    nkFprintf fl "\x7d%s" [.str ed] = 125 :: ed ∧ nkFprintf fl ")%s" [.str ed] = 41 :: ed ∧
      nkFprintf fl "]%s" [.str ed] = 93 :: ed ∧ nkFprintf fl "\"%s" [.str ed] = 34 :: ed ∧
      nkFprintf fl "true%s" [.str ed] = ascii "true" ++ ed ∧
      nkFprintf fl "false%s" [.str ed] = ascii "false" ++ ed := by
  have hend : emits .plain ed 0 ++ [] = ed := by simp
  refine ⟨?_, ?_, ?_, ?_, ?_, ?_⟩
  · exact congrArg (125 :: ·) hend
  · exact congrArg (41 :: ·) hend
  · exact congrArg (93 :: ·) hend
  · exact congrArg (34 :: ·) hend
  · exact congrArg (ascii "true" ++ ·) hend
  · exact congrArg (ascii "false" ++ ·) hend

theorem nkFprintf_format_ed (fl : Floats) (what : IntType) (n : Int) (ed : List UInt8) :
    nkFprintf fl (what.format ++ "%s") [.int n, .str ed] =
      nkFprintf fl what.format [.int n] ++ ed := by
  have hend : emits .plain ed 0 ++ [] = ed := by simp
  have hsigned : nkFprintf fl "%d%s" [.int n, .str ed] = nkFprintf fl "%d" [.int n] ++ ed := by
    have hboth : nkFprintf fl "%d%s" [.int n, .str ed] =
        emitDec .plain (signed 32 n).natAbs (decide (signed 32 n < 0)) ++
          (emits .plain ed 0 ++ []) := rfl
    have hfirst : nkFprintf fl "%d" [.int n] =
        emitDec .plain (signed 32 n).natAbs (decide (signed 32 n < 0)) ++ [] := rfl
    rw [hboth, hfirst, hend, List.append_nil]
  have hunsigned : nkFprintf fl "%u%s" [.int n, .str ed] = nkFprintf fl "%u" [.int n] ++ ed := by
    have hboth : nkFprintf fl "%u%s" [.int n, .str ed] =
        emitDec .plain (wrap 32 n) false ++ (emits .plain ed 0 ++ []) := rfl
    have hfirst : nkFprintf fl "%u" [.int n] = emitDec .plain (wrap 32 n) false ++ [] := rfl
    rw [hboth, hfirst, hend, List.append_nil]
  cases what
  case tInt | tInt8 | tInt16 => exact hsigned
  case tUint | tUint8 | tUint16 => exact hunsigned

theorem fprintHeader_eq (fl : Floats) (columns : List Member) :
    fprintHeader fl columns = layoutHeader .pretty columns := by
  induction columns with
  | nil => rfl
  | cons m columns ih =>
      obtain ⟨name, type, offset⟩ := m
      have hname : nkFprintf fl "\t%s" [.str name] = 9 :: name := by
        have hprint : nkFprintf fl "\t%s" [.str name] = 9 :: (emits .plain name 0 ++ []) := rfl
        rw [hprint, emits_plain, List.append_nil]
      rw [layoutHeader, ← ih, fprintHeader, List.flatMap_cons, hname]
      rfl

theorem fprintItems_eq {item : Nat → List UInt8 → List UInt8} {text : Nat → List UInt8}
    (hitem : ∀ location ed, item location ed = text location ++ ed) (size : Nat) (ind : Int)
    (count location : Nat) :
    fprintItems item size ind count location =
      layoutItems .pretty text size ind count location := by
  induction count generalizing location with
  | zero => rfl
  | succ count ih =>
      rw [fprintItems, layoutItems, ih, hitem]
      by_cases hcount : count = 0
      · subst hcount
        simp [Spacing.pretty, Spacing.separator, ascii]
      · simp [hcount, Spacing.pretty, Spacing.separator, ascii]

theorem fprintRows_eq (fl : Floats) (row : Nat → List UInt8) (size : Nat) (ind : Int)
    (count location : Nat) :
    fprintRows fl row size ind count location =
      layoutRows .pretty row size ind count location := by
  induction count generalizing location with
  | zero => rfl
  | succ count ih =>
      have hcolon : nkFprintf fl ":" [] = [58] := rfl
      have hline : nkFprintf fl "\n" [] = [10] := rfl
      rw [fprintRows, layoutRows, ih, hcolon, hline]
      simp [Spacing.pretty]

mutual

/-- The printer puts the pretty layout, and `ed` behind it. -/
theorem nkDbaseFprint_eq (fl : Floats) (charSigned : Bool) (mem : Memory) (type : Ty)
    (hwf : WellFormed type) (location : Nat) (ind : Int) (ed : List UInt8) :
    nkDbaseFprint fl charSigned mem type location ind ed =
      layout .pretty fl charSigned mem type ind location ++ ed := by
  obtain ⟨hbrace, hparen, hbracket, hquote, htrue, hfalse⟩ := nkFprintf_ed fl ed
  cases type with
  | tBool size check =>
      rw [nkDbaseFprint, layout, htrue, hfalse]
      split <;> rfl
  | tInteger what size check =>
      rw [nkDbaseFprint, layout, nkFprintf_format_ed, IntType.nkFprintf_load]
  | tDouble size check => exact absurd hwf (by simp [WellFormed])
  | tFloat size check => exact absurd hwf (by simp [WellFormed])
  | tString size check =>
      rw [nkDbaseFprint, layout, hquote]
      simp [ascii]
  | tStruct size members check =>
      have hopen : nkFprintf fl "\x7b\n" [] = [123, 10] := rfl
      simp only [WellFormed] at hwf
      rw [nkDbaseFprint, layout, hopen, hbrace,
        fprintMembers_eq fl charSigned mem members hwf.2.1 location ind]
      simp [Spacing.pretty]
  | tArray size subtype check =>
      have hopen : nkFprintf fl "[\n" [] = [91, 10] := rfl
      simp only [WellFormed] at hwf
      rw [nkDbaseFprint, layout, hopen, hbracket, fprintItems_eq fun location ed =>
        nkDbaseFprint_eq fl charSigned mem subtype hwf.2.2.2.1 location (ind + 2) ed]
      simp [Spacing.pretty]
  | tVarray size subtype check =>
      have hopen : nkFprintf fl "[\n" [] = [91, 10] := rfl
      simp only [WellFormed] at hwf
      rw [nkDbaseFprint, layout, hopen, hbracket, fprintItems_eq fun location ed =>
        nkDbaseFprint_eq fl charSigned mem subtype hwf.2.2.2.1 location (ind + 2) ed]
      simp [Spacing.pretty]
  | tTable size rowSize columns check =>
      have hline : nkFprintf fl "\n" [] = [10] := rfl
      simp only [WellFormed] at hwf
      have hrow : fprintRow fl charSigned mem columns =
          layoutFields .pretty fl charSigned mem columns :=
        funext fun location => fprintRow_eq fl charSigned mem columns hwf.2.2.2.1 location
      rw [nkDbaseFprint, layout, hline, hparen, hrow, fprintHeader_eq, fprintRows_eq]
      simp [Spacing.pretty, ascii]

theorem fprintMembers_eq (fl : Floats) (charSigned : Bool) (mem : Memory)
    (members : List Member) {size : Nat} (hwf : MembersWellFormed size members)
    (location : Nat) (ind : Int) :
    fprintMembers fl charSigned mem members location ind =
      layoutMembers .pretty fl charSigned mem members ind location := by
  match members with
  | [] => rw [fprintMembers, layoutMembers]
  | (name, type, offset) :: members =>
      obtain ⟨⟨_, _, _, htype⟩, _, hmembers⟩ := hwf
      have hline : nkFprintf fl "%s:\n" [.str name] = name ++ [58, 10] := by
        have hprint : nkFprintf fl "%s:\n" [.str name] = emits .plain name 0 ++ [58, 10] := rfl
        rw [hprint, emits_plain]
      have hspace : nkFprintf fl "%s: " [.str name] = name ++ [58, 32] := by
        have hprint : nkFprintf fl "%s: " [.str name] = emits .plain name 0 ++ [58, 32] := rfl
        rw [hprint, emits_plain]
      rw [fprintMembers, layoutMembers, hline, hspace,
        fprintMembers_eq fl charSigned mem members hmembers location ind,
        nkDbaseFprint_eq fl charSigned mem type htype,
        nkDbaseFprint_eq fl charSigned mem type htype]
      cases type.isTable <;> cases members <;> simp [Spacing.pretty, Spacing.separator, ascii]

theorem fprintRow_eq (fl : Floats) (charSigned : Bool) (mem : Memory)
    (columns : List Member) {size : Nat} (hwf : MembersWellFormed size columns)
    (location : Nat) :
    fprintRow fl charSigned mem columns location =
      layoutFields .pretty fl charSigned mem columns location := by
  match columns with
  | [] => rw [fprintRow, layoutFields]
  | (name, type, offset) :: columns =>
      obtain ⟨⟨_, _, _, htype⟩, _, hcolumns⟩ := hwf
      rw [fprintRow, layoutFields, nkDbaseFprint_eq fl charSigned mem type htype,
        fprintRow_eq fl charSigned mem columns hcolumns location]
      cases columns <;> simp [Spacing.pretty, ascii]

end

/-! ## Both printers -/

/-- A string that was stored is the one that is found there, whatever is behind it. -/
theorem cString_restored {mem : Memory} {location size : Nat} {s : List UInt8}
    (hlength : s.length + 1 ≤ size) (hs : ∀ b ∈ s, b ≠ 0)
    (h : mem.read location (s.length + 1) = s ++ [0]) : cString (mem.read location size) = s := by
  have hsplit : mem.read location size =
      mem.read location (s.length + 1) ++ (mem.read location size).drop (s.length + 1) := by
    rw [← Memory.read_take mem hlength, List.take_append_drop]
  rw [hsplit, h, cString, List.append_assoc,
    List.takeWhile_append_of_pos fun b hb => by simpa using hs b hb]
  simp

/-- Two memories that a value was restored to have the same value. -/
theorem Restored.agree {mem₁ mem₂ : Memory} {type : Ty} (hwf : WellFormed type)
    {location location' : Nat} (hok : ValueOk mem type location)
    (h₁ : Restored mem mem₁ type location location')
    (h₂ : Restored mem mem₂ type location location') :
    Restored mem₁ mem₂ type location' location' := by
  induction type, hwf using wellFormed_induction generalizing location location' with
  | tBool size check hwf =>
      simp only [Restored] at h₁ h₂ ⊢
      rw [h₁, h₂]
      by_cases hval : ofLe (mem.read location 4) ≠ 0
      · rw [if_pos hval]
        rfl
      · rw [if_neg hval]
        rfl
  | tInteger what size check hwf =>
      simp only [Restored] at h₁ h₂ ⊢
      exact h₂.trans h₁.symm
  | tString size check hwf =>
      simp only [Restored, ValueOk] at h₁ h₂ hok ⊢
      have hlength := cString_length hok
      rw [Memory.read_length] at hlength
      have hsame : cString (mem₁.read location' size) = cString (mem.read location size) :=
        cString_restored hlength (fun b hb => by simpa using List.mem_takeWhile_imp hb) h₁
      rw [hsame]
      exact h₂
  | tStruct size members check hwf ih =>
      simp only [WellFormed] at hwf
      simp only [Restored, ValueOk] at h₁ h₂ hok ⊢
      obtain ⟨hall, -⟩ := membersWellFormed_iff.mp hwf.2.1
      refine membersRestored_iff.mpr fun m hm => ?_
      exact ih m hm (hall m hm).type (membersOk_iff.mp hok m hm) (membersRestored_iff.mp h₁ m hm)
        (membersRestored_iff.mp h₂ m hm)
  | tArray size subtype check hwf ih =>
      simp only [WellFormed] at hwf
      simp only [Restored, ValueOk] at h₁ h₂ hok ⊢
      exact fun i hi => ih hwf.2.2.2.1 (hok i hi) (h₁ i hi) (h₂ i hi)
  | tVarray size subtype check hwf ih =>
      simp only [WellFormed] at hwf
      simp only [Restored, ValueOk] at h₁ h₂ hok ⊢
      refine ⟨h₂.1.trans h₁.1.symm, fun i hi => ?_⟩
      rw [h₁.1] at hi
      exact ih hwf.2.2.2.1 (hok.2 i hi) (h₁.2 i hi) (h₂.2 i hi)
  | tTable size rowSize columns check hwf ih =>
      simp only [WellFormed] at hwf
      simp only [Restored, ValueOk] at h₁ h₂ hok ⊢
      obtain ⟨hall, -⟩ := membersWellFormed_iff.mp hwf.2.2.2.1
      refine ⟨h₂.1.trans h₁.1.symm, fun i hi => ?_⟩
      rw [h₁.1] at hi
      refine membersRestored_iff.mpr fun m hm => ?_
      exact ih m hm (hall m hm).type (membersOk_iff.mp (hok.2 i hi) m hm)
        (membersRestored_iff.mp (h₁.2 i hi) m hm) (membersRestored_iff.mp (h₂.2 i hi) m hm)

/-- A scan that ends with a value and whitespace succeeds when nothing is left. -/
theorem takes_value_blank_end {scan : Memory → FileProg (Bool × Memory)} {mem₀ mem₁ : Memory}
    {args : List ScanArg} {out : List (Scanned fl)} {tok left : List UInt8}
    (h : Takes (scan mem₀) tok left (true, mem₁)) (hleft : Blank left)
    (hfuel : left.length ≤ fuel) :
    Takes (scanDirectives fl fuel false [.value, .blank] (.value scan :: args) out mem₀)
      (tok ++ left) [] (true, out, mem₁) := by
  have hend : Takes (scanDirectives fl fuel false [] args out mem₁) [] [] (true, out, mem₁) := by
    simp only [scanDirectives]
    exact Takes.look (Takes.peek []) (Takes.pure _ _)
  have hblank := takes_blank hleft (by decide) hfuel hend
  simp only [List.append_nil] at hblank
  simp only [scanDirectives] at hblank ⊢
  refine Takes.bind (by rwa [List.append_nil]) ?_
  simp only [if_true]
  exact hblank

/-- What `nk_dbase_fprint(f, type, location, ind, "\n")` puts is taken by
`nk_fscan(f, "%v ", type, location')`. -/
theorem takes_fprint {type : Ty} (hwf : WellFormed type) {location : Nat}
    (hok : ValueOk mem type location) (ind : Int) (location' : Nat) (mem₀ : Memory)
    (hfuel : (nkDbaseFprint fl charSigned mem type location ind (ascii "\n")).length < fuel) :
    ∃ mem₁,
      Takes (nkVscan fl fuel false "%v " [.value (nkFscanKeyval fl fuel type location')] mem₀)
        (nkDbaseFprint fl charSigned mem type location ind (ascii "\n")) [] (true, [], mem₁) ∧
      Restored mem mem₁ type location location' ∧
      SameOutside mem₀ mem₁ location' type.extent := by
  have hline : ascii "\n" = [10] := rfl
  rw [nkDbaseFprint_eq fl charSigned mem type hwf location ind, hline] at hfuel ⊢
  have hfollows : Follows type [10] [] :=
    Or.inr ⟨blank_newline, by decide, Or.inr (Or.inr (Or.inl (by decide)))⟩
  obtain ⟨mem₁, ate, left, hws, -, htakes, hmigrated, hsame⟩ :=
    reads_self .pretty fl charSigned hwf ind hok fuel location' mem₀ [10] [] hfollows
      (by rwa [List.append_nil])
  have hblank : Blank (ate ++ left) := hws ▸ blank_newline
  have hleft : left.length ≤ fuel := by
    have hlength := congrArg List.length hws
    simp only [List.length_append, List.length_singleton] at hlength hfuel
    omega
  rw [List.append_nil] at htakes
  have hscan : Takes
      (scanDirectives fl fuel false [.value, .blank] [.value (nkFscanKeyval fl fuel type location')]
        [] mem₀)
      (layout .pretty fl charSigned mem type ind location ++ ate ++ left) [] (true, [], mem₁) :=
    takes_value_blank_end htakes (blank_left hblank) hleft
  refine ⟨mem₁, ?_, hmigrated.restored hwf hok, hsame⟩
  rw [hws, ← List.append_assoc]
  exact Takes.orRewind_ok hscan rfl

/-- `nk_fscan(f, "%v ", type, location)` on what was put for people succeeds at the end
of the input, with the same value as parsing what was serialized. -/
theorem nkVscan_fprint (fl : Floats) (charSigned : Bool) {type : Ty} (hwf : WellFormed type)
    {mem : Memory} {location : Nat} (hok : ValueOk mem type location) (ind : Int) (location' : Nat)
    (mem₀ : Memory) {w fuel : Nat} {f g : Nkinfile w}
    (hfile : Agrees f
      (Cursor.at [] (nkDbaseFprint fl charSigned mem type location ind (ascii "\n"))))
    (hcompact : Agrees g (Cursor.at [] (nkDbaseSerialize fl charSigned mem type location)))
    (hfuel : (nkDbaseFprint fl charSigned mem type location ind (ascii "\n")).length < fuel)
    (hfuel' : (nkDbaseSerialize fl charSigned mem type location).length < fuel) :
    ∃ f' g' mem₁ mem₂,
      (nkVscan fl fuel false "%v " [.value (nkFscanKeyval fl fuel type location')] mem₀).run
        (nkinfile w) f = some ((true, [], mem₁), f') ∧
      (nkVscan fl fuel false "%v" [.value (nkFscanKeyval fl fuel type location')] mem₀).run
        (nkinfile w) g = some ((true, [], mem₂), g') ∧
      Agrees f'
        (Cursor.at (nkDbaseFprint fl charSigned mem type location ind (ascii "\n")) []) ∧
      Restored mem mem₁ type location location' ∧
      Restored mem mem₂ type location location' ∧
      Restored mem₁ mem₂ type location' location' ∧
      SameOutside mem₀ mem₁ location' type.extent ∧
      SameOutside mem₀ mem₂ location' type.extent := by
  obtain ⟨mem₁, htakes, hrestored₁, hsame₁⟩ := takes_fprint hwf hok ind location' mem₀ hfuel
  obtain ⟨g', mem₂, hrun₂, -, hrestored₂, hsame₂⟩ :=
    nkVscan_serialize fl charSigned hwf hok location' mem₀ hcompact hfuel'
  have hrun := htakes []
  rw [List.append_nil] at hrun
  obtain ⟨f', hrun₁, hagrees⟩ := run_of_plainFile hfile hrun
  exact ⟨f', g', mem₁, mem₂, hrun₁, hrun₂, hagrees, hrestored₁, hrestored₂,
    hrestored₁.agree hwf hok hrestored₂, hsame₁, hsame₂⟩

/-- An array of Boolean values, a string with a quote and a table with two rows, printed
with an indentation of 2. -/
theorem nkVscan_fprint_record :
    let row : List Member := [([97], .tInteger .tInt8 1 none, 0), ([98], .tBool 4 none, 4)]
    let type : Ty := .tStruct 44 [([111, 110], .tArray 8 (.tBool 4 none) none, 0),
      ([115], .tString 4 none, 8), ([114], .tTable 16 8 row none, 12)] none
    let image : List UInt8 := [7, 0, 0, 0, 0, 0, 0, 0, 104, 34, 255, 0, 2, 0, 0, 0, 0, 0, 0, 0,
      128, 0, 0, 0, 0, 0, 0, 0, 9, 0, 0, 0, 0, 1, 0, 0]
    let mem : Memory := fun a => image.getD a 0
    let text := nkDbaseFprint .absent true mem type 0 2 (ascii "\n")
    ∃ f' mem₁,
      (nkVscan .absent 200 false "%v " [.value (nkFscanKeyval .absent 200 type 100)] fun _ => 0).run
        (nkinfile 32) (nkinfileOpenMem 32 (text ++ []) text.length) = some ((true, [], mem₁), f') ∧
      Restored mem mem₁ type 0 100 := by
  intro row type image mem text
  have hids : IsIdent [97] ∧ IsIdent [98] ∧ IsIdent [111, 110] ∧ IsIdent [115] ∧ IsIdent [114] :=
    ⟨.of_all rfl, .of_all rfl, .of_all rfl, .of_all rfl, .of_all rfl⟩
  have hwf : WellFormed type := by
    simp [type, row, WellFormed, MembersWellFormed, Check.Accepts, Check.passes, Apart, Ty.extent,
      Ty.size, Ty.counted, lenSize, IntType.width, nkdbaseMaxIdentLen, nkdbaseMaxCols, hids]
  have hlen : getLen mem 12 = 2 := rfl
  have hok : ValueOk mem type 0 := by
    simp only [type, row, ValueOk, MembersOk, Nat.zero_add, hlen]
    exact ⟨fun _ _ => trivial, by decide, ⟨by decide, fun _ _ => ⟨trivial, trivial, trivial⟩⟩,
      trivial⟩
  have hlong : text.length < 200 := by decide +kernel
  have hshort : (nkDbaseSerialize .absent true mem type 0).length < 200 := by decide +kernel
  obtain ⟨f', -, mem₁, -, hrun, -, -, hrestored, -⟩ :=
    nkVscan_fprint .absent true hwf hok 2 100 (fun _ => 0)
      (nkinfileOpenMem_agrees text [] (by omega))
      (nkinfileOpenMem_agrees (w := 32) (nkDbaseSerialize .absent true mem type 0) [] (by omega))
      hlong hshort
  exact ⟨f', mem₁, hrun, hrestored⟩

end LibnklabsPico.Dbase
