/-
  Dbase/Xpath.lean --- where a path leads.

  `Spells` says which path a key spells, in terms of text alone, and `Denotes` which part
  of a value a path denotes: an item below the current length or the fixed number, or a
  member.  `nk_xpath` gives the part that the key spells, if there is one.
-/
import LibnklabsPico.Dbase.Nkxpath
import LibnklabsPico.Dbase.Slots
import LibnklabsPico.Text.Tokens

set_option autoImplicit false

namespace LibnklabsPico.Dbase

open LibnklabsPico.Foundation
open LibnklabsPico.File
open LibnklabsPico.File.FileProg
open LibnklabsPico.Text

/-! ## Paths -/

/-- One step of a path. -/
inductive PathStep where
  /-- `[n]`, as a `size_t` -/
  | index (n : Nat)
  /-- a name, which may be in quotes -/
  | name (chars : List UInt8)

/-- `"[ %zu ]"` -/
def indexFormat : List FormatItem :=
  [.lit 91 (by decide), .blank false, .dec [] .z true, .blank false, .lit 93 (by decide)]

/-- The step that stands at a position of a key, and where it ends. -/
def stepAt (text : List UInt8) (pos : Nat) : Option (Nat × PathStep) :=
  match itemsAt decimalWidth text true indexFormat pos with
  | some (stop, vals) => some (stop, .index (vals.headD 0))
  | none => (tokenAt isIdentStart isIdentChar text pos (-1)).map fun stop =>
      (stop, .name (tokenText isIdentStart isIdentChar false text pos (-1)))

/-- The path that a key spells from a position on.  Behind a step there is a dot, the
bracket of an index, or the end of the key. -/
inductive Spells (text : List UInt8) : Nat → List PathStep → Prop where
  | done : Spells text text.length []
  | last {pos : Nat} {step : PathStep} (found : stepAt text pos = some (text.length, step)) :
      Spells text pos [step]
  | dot {pos stop : Nat} {step : PathStep} {steps : List PathStep}
      (found : stepAt text pos = some (stop, step)) (sep : charAt text stop = ch '.')
      (rest : Spells text (stop + 1) steps) : Spells text pos (step :: steps)
  | bracket {pos stop : Nat} {step : PathStep} {steps : List PathStep}
      (found : stepAt text pos = some (stop, step)) (sep : charAt text stop = ch '[')
      (rest : Spells text stop steps) : Spells text pos (step :: steps)

/-- Where the items of a value are from its address on, and their type. -/
def Ty.items : Ty → Option (Nat × Ty)
  | .tArray _ subtype _ => some (0, subtype)
  | .tVarray _ subtype _ => some (lenSize, subtype)
  | .tTable _ rowSize columns _ => some (lenSize, .tStruct rowSize columns none)
  | _ => none

/-- How many items a value has: the fixed number or the current length. -/
def Ty.itemCount (mem : Memory) (location : Nat) : Ty → Nat
  | .tArray size subtype _ => size / subtype.size
  | .tVarray _ _ _ | .tTable _ _ _ _ => getLen mem location
  | _ => 0

/-- The part of a value that one step leads to: a live item, or the member whose name is the
first characters of the one that is spelled. -/
inductive Leads (mem : Memory) : Ty → Nat → PathStep → Ty → Nat → Prop where
  | item {type subtype : Ty} {location offset i : Nat}
      (items : type.items = some (offset, subtype)) (live : i < type.itemCount mem location) :
      Leads mem type location (.index i) subtype (location + offset + i * subtype.size)
  | member {size location : Nat} {members : List Member} {check : Check} {chars : List UInt8}
      {m : Member} (found : findMember members (chars.take (nkdbaseMaxIdentLen - 1)) = some m) :
      Leads mem (.tStruct size members check) location (.name chars) m.2.1 (location + m.2.2)

/-- The part of a value that a path leads to. -/
inductive Denotes (mem : Memory) : Ty → Nat → List PathStep → Ty → Nat → Prop where
  | here {type : Ty} {location : Nat} : Denotes mem type location [] type location
  | step {type type' type'' : Ty} {location location' location'' : Nat} {step : PathStep}
      {steps : List PathStep} (first : Leads mem type location step type' location')
      (rest : Denotes mem type' location' steps type'' location'') :
      Denotes mem type location (step :: steps) type'' location''

/-! ## Parts of a value -/

section

variable {mem : Memory} {type type' : Ty} {location location' : Nat}

/-- What holds of the part of a value that one step leads to. -/
structure Inside (mem : Memory) (type : Ty) (location : Nat) (type' : Ty) (location' : Nat) :
    Prop where
  placed : Placed type'
  value : ValueOk mem type' location'
  low : location ≤ location'
  high : location' + type'.extent ≤ location + type.extent

/-- A step leads to a part within the value. -/
theorem Leads.inside {step : PathStep} (h : Leads mem type location step type' location')
    (hplaced : Placed type) (hok : ValueOk mem type location) :
    Inside mem type location type' location' := by
  cases h with
  | @item _ _ _ offset i items live =>
      cases hplaced with
      | tBool | tInteger | tDouble | tFloat | tString | tStruct => cases items
      | tArray positive whole flat placed =>
          cases items
          have hwithin := item_within live (Nat.le_refl _)
          have hextent := Ty.extent_of_not_counted flat
          simp only [ValueOk] at hok
          refine ⟨placed, hok i live, by omega, ?_⟩
          rw [Ty.extent_tArray]
          omega
      | tVarray positive whole flat placed =>
          cases items
          simp only [ValueOk] at hok
          have hwithin := item_within live hok.1
          have hextent := Ty.extent_of_not_counted flat
          refine ⟨placed, hok.2 i live, by omega, ?_⟩
          rw [Ty.extent_tVarray]
          omega
      | tTable positive within apart types =>
          cases items
          simp only [ValueOk] at hok
          have hwithin := item_within live hok.1
          refine ⟨.tStruct within apart types, ?_, by omega, ?_⟩
          · simp only [ValueOk]
            exact hok.2 i live
          · rw [Ty.extent_tTable, Ty.extent_tStruct]
            simp only [Ty.size]
            omega
  | member found =>
      have hm := findMember_mem found
      cases hplaced with
      | tStruct within apart types =>
          simp only [ValueOk] at hok
          have hwithin := within _ hm
          refine ⟨types _ hm, membersOk_iff.mp hok _ hm, by omega, ?_⟩
          rw [Ty.extent_tStruct]
          omega

/-- So does a path. -/
theorem Denotes.inside {steps : List PathStep} (h : Denotes mem type location steps type' location')
    (hplaced : Placed type) (hok : ValueOk mem type location) :
    Inside mem type location type' location' := by
  induction h with
  | here => exact ⟨hplaced, hok, Nat.le_refl _, Nat.le_refl _⟩
  | step first rest ih =>
      have hfirst := first.inside hplaced hok
      have hrest := ih hfirst.placed hfirst.value
      exact ⟨hrest.placed, hrest.value, Nat.le_trans hfirst.low hrest.low,
        Nat.le_trans hrest.high hfirst.high⟩

end

/-! ## The steps of a key -/

section

variable {text : List UInt8} {pos stop : Nat}

/-- An index starts with a bracket. -/
theorem indexFormat_lt {vals : List Nat}
    (h : itemsAt decimalWidth text true indexFormat pos = some (stop, vals)) : pos < stop := by
  obtain ⟨⟨next, first⟩, hbracket, hrest⟩ := Option.bind_eq_some_iff.mp h
  obtain ⟨⟨stop', rest⟩, hitems, hvals⟩ := Option.map_eq_some_iff.mp hrest
  obtain ⟨rfl, -⟩ := Prod.mk.inj hvals
  have hle : next ≤ stop' := itemsAt_le hitems
  have hfixed : (if charAt text pos = (91 : UInt8).toNat then some (pos + 1) else none).map
      (fun stop => (stop, ([] : List Nat))) = some (next, first) := hbracket
  split at hfixed
  · obtain ⟨rfl, -⟩ := Prod.mk.inj (Option.some.inj hfixed)
    exact hle
  · cases hfixed

theorem stepAt_lt {step : PathStep} (h : stepAt text pos = some (stop, step)) : pos < stop := by
  unfold stepAt at h
  cases hindex : itemsAt decimalWidth text true indexFormat pos with
  | some found =>
      obtain ⟨next, vals⟩ := found
      rw [hindex] at h
      obtain ⟨rfl, -⟩ := Prod.mk.inj (Option.some.inj h)
      exact indexFormat_lt hindex
  | none =>
      rw [hindex] at h
      obtain ⟨stop', htoken, hstop⟩ := Option.map_eq_some_iff.mp h
      obtain ⟨rfl, -⟩ := Prod.mk.inj hstop
      exact tokenAt_lt htoken

/-- Nothing stands at the end of a key. -/
theorem stepAt_end : stepAt text text.length = none := by
  have hend : charAt text text.length = -1 := Cursor.peek_of_le (Nat.le_refl _)
  have hindex : itemsAt decimalWidth text true indexFormat text.length = none := by
    have hbracket : (FormatItem.lit 91 (by decide)).matched text text.length decimalWidth =
        none := by
      have hne : ¬ charAt text text.length = (91 : UInt8).toNat := by
        rw [hend]
        decide
      exact congrArg (Option.map fun stop => (stop, ([] : List Nat))) (if_neg hne)
    rw [indexFormat, itemsAt, hbracket, Option.bind_none]
  have htoken : tokenAt isIdentStart isIdentChar text text.length (-1) = none := by
    have hstart : ¬ isIdentStart (charAt text text.length) = true := by
      rw [hend]
      decide
    have hquote : ¬ charAt text text.length = ch '"' := by
      rw [hend]
      decide
    rw [tokenAt, if_neg hquote, tokenChars, if_neg hstart, field_nil]
    rfl
  rw [stepAt, hindex, htoken]
  rfl

/-- A path starts with the step that stands there. -/
theorem Spells.first {step : PathStep} {steps : List PathStep}
    (found : stepAt text pos = some (stop, step)) (h : Spells text pos steps) :
    ∃ rest, steps = step :: rest ∧ (stop = text.length ∧ rest = [] ∨
      charAt text stop = ch '.' ∧ Spells text (stop + 1) rest ∨
      charAt text stop = ch '[' ∧ Spells text stop rest) := by
  cases h with
  | done =>
      rw [stepAt_end] at found
      cases found
  | last found' =>
      rw [found'] at found
      obtain ⟨rfl, rfl⟩ := Prod.mk.inj (Option.some.inj found)
      exact ⟨[], rfl, Or.inl ⟨rfl, rfl⟩⟩
  | dot found' sep rest =>
      rw [found'] at found
      obtain ⟨rfl, rfl⟩ := Prod.mk.inj (Option.some.inj found)
      exact ⟨_, rfl, Or.inr (Or.inl ⟨sep, rest⟩)⟩
  | bracket found' sep rest =>
      rw [found'] at found
      obtain ⟨rfl, rfl⟩ := Prod.mk.inj (Option.some.inj found)
      exact ⟨_, rfl, Or.inr (Or.inr ⟨sep, rest⟩)⟩

/-- Without a step there is no path but the empty one at the end of the key. -/
theorem Spells.none {steps : List PathStep} (found : stepAt text pos = none)
    (h : Spells text pos steps) : pos = text.length := by
  cases h with
  | done => rfl
  | last found' | dot found' | bracket found' =>
      rw [found] at found'
      cases found'

/-- A key spells one path only. -/
theorem Spells.unique {steps steps' : List PathStep} (h : Spells text pos steps)
    (h' : Spells text pos steps') : steps' = steps := by
  have hend : charAt text text.length = -1 := Cursor.peek_of_le (Nat.le_refl _)
  have hdot : ch '.' ≠ ch '[' := by decide
  induction h generalizing steps' with
  | done =>
      cases h' with
      | done => rfl
      | last found | dot found | bracket found =>
          rw [stepAt_end] at found
          cases found
  | last found =>
      obtain ⟨rest, rfl, ⟨-, rfl⟩ | ⟨hsep, -⟩ | ⟨hsep, -⟩⟩ := h'.first found
      · rfl
      · rw [hend] at hsep
        cases hsep
      · rw [hend] at hsep
        cases hsep
  | dot found sep _ ih =>
      obtain ⟨rest, rfl, ⟨rfl, -⟩ | ⟨-, hrest⟩ | ⟨hsep, -⟩⟩ := h'.first found
      · rw [hend] at sep
        cases sep
      · rw [ih hrest]
      · exact absurd (sep.symm.trans hsep) hdot
  | bracket found sep _ ih =>
      obtain ⟨rest, rfl, ⟨rfl, -⟩ | ⟨hsep, -⟩ | ⟨-, hrest⟩⟩ := h'.first found
      · rw [hend] at sep
        cases sep
      · exact absurd (hsep.symm.trans sep) hdot
      · rw [ih hrest]

variable {fl : Floats} {fuel : Nat}

theorem stays_scanIndex (hfuel : text.length ≤ fuel) :
    Stays text (scanIndex fl fuel) pos fun r pos' =>
      match itemsAt decimalWidth text true indexFormat pos with
      | some (next, vals) => r = (true, vals.headD 0) ∧ pos' = next
      | none => r.1 = false ∧ pos' = pos := by
  have hscan : Stays text _ pos _ :=
    stays_vscan_items fl hfuel indexFormat true (fun _ => 0)
  have hwidths : itemsAt addedWidth text true indexFormat pos =
      itemsAt decimalWidth text true indexFormat pos := rfl
  rw [hwidths] at hscan
  refine .bind hscan fun r pos' h => .pure ?_
  obtain ⟨status, out, mem⟩ := r
  cases hindex : itemsAt decimalWidth text true indexFormat pos with
  | none =>
      rw [hindex] at h
      exact h
  | some found =>
      rw [hindex] at h
      obtain ⟨⟨hstatus, hvals⟩, hstop⟩ := h
      exact ⟨Prod.ext hstatus (by rw [← hvals]), hstop⟩

theorem stays_scanName (hfuel : text.length ≤ fuel) (size : Nat) :
    Stays text (nkFscanBuf fl fuel "%i%e" size) pos fun r pos' =>
      match tokenAt isIdentStart isIdentChar text pos (-1) with
      | some stop => pos' = stop ∧
          r = (true, (tokenText isIdentStart isIdentChar false text pos (-1)).take (size - 1))
      | none => r.1 = false ∧ pos' = pos := by
  have hend : isIdentChar (-1) = false := by decide
  have hscan : Stays text (nkFscanIdent fuel false (-1) size) pos _ :=
    (stays_tokenAt hend hfuel false (-1) size).and (stays_tokenText hend hfuel false (-1) size)
  have hdirectives : Stays text (scanDirectives fl fuel false
      (parseFmt (ascii "%i%e").length (ascii "%i%e")) [.buf size] [] (fun _ => 0)) pos
      (Outcome ((tokenAt isIdentStart isIdentChar text pos (-1)).map fun stop => (stop, ()))
        (fun _ r => r.1 = true ∧ r.2.1 =
          [.text ((tokenText isIdentStart isIdentChar false text pos (-1)).take (size - 1))])
        fun r _ => r.1 = false) := by
    refine .bind hscan fun r pos' h => ?_
    obtain ⟨status, buf⟩ := r
    obtain ⟨hplace, -, htext⟩ := h
    cases htoken : tokenAt isIdentStart isIdentChar text pos (-1) with
    | none =>
        rw [htoken] at hplace
        obtain rfl : status = false := hplace.1
        exact .pure rfl
    | some stop =>
        rw [htoken] at hplace
        obtain ⟨hstatus, rfl⟩ := hplace
        obtain rfl : status = true := hstatus
        obtain rfl := htext rfl
        exact .pure ⟨⟨rfl, rfl⟩, rfl⟩
  refine .bind (hdirectives.orRewind_outcome (fun _ _ h => h.1) fun _ h => h) fun r pos' h => ?_
  obtain ⟨status, out, mem⟩ := r
  cases htoken : tokenAt isIdentStart isIdentChar text pos (-1) with
  | none =>
      rw [htoken] at h
      obtain ⟨hstatus, hpos⟩ := h
      obtain rfl : status = false := hstatus
      dsimp only
      split <;> exact .pure ⟨rfl, hpos⟩
  | some stop =>
      rw [htoken] at h
      obtain ⟨⟨hstatus, hout⟩, hpos⟩ := h
      obtain rfl : status = true := hstatus
      obtain rfl : out = _ := hout
      exact .pure ⟨hpos, rfl⟩

end

/-! ## The loop over the steps -/

section

variable {mem : Memory} {type type' : Ty} {location location' : Nat}

theorem Leads.at {subtype : Ty} {offset i : Nat} (items : type.items = some (offset, subtype))
    (live : i < type.itemCount mem location)
    (hlocation : location' = location + offset + i * subtype.size) :
    Leads mem type location (.index i) subtype location' := by
  rw [hlocation]
  exact .item items live

/-- `nk_xpath` finds the item that an index leads to. -/
theorem leads_index_iff {i : Nat} :
    Leads mem type location (.index i) type' location' ↔
      xpathIndex mem type location i = some (type', location') := by
  constructor
  · intro h
    cases h with
    | item items live =>
        cases type with
        | tBool | tInteger | tDouble | tFloat | tString | tStruct => cases items
        | tArray | tVarray | tTable =>
            cases items
            exact if_neg (Nat.not_le.mpr live)
  · intro h
    cases type with
    | tBool | tInteger | tDouble | tFloat | tString | tStruct => cases h
    | tArray | tVarray | tTable =>
        simp only [xpathIndex, Option.ite_none_left_eq_some, Option.some.injEq, Prod.mk.injEq] at h
        obtain ⟨hlive, rfl, rfl⟩ := h
        exact Leads.at rfl (Nat.lt_of_not_ge hlive) rfl

/-- `nk_xpath` finds the member that a name leads to. -/
theorem leads_name_iff {chars : List UInt8} :
    Leads mem type location (.name chars) type' location' ↔
      ∃ m, xpathMember type (chars.take (nkdbaseMaxIdentLen - 1)) = some m ∧ type' = m.2.1 ∧
        location' = location + m.2.2 := by
  constructor
  · intro h
    cases h with
    | member found => exact ⟨_, found, rfl, rfl⟩
  · rintro ⟨m, found, rfl, rfl⟩
    cases type with
    | tStruct => exact .member found
    | tBool | tInteger | tDouble | tFloat | tString | tArray | tVarray | tTable => cases found

/-- A step leads to one place only. -/
theorem Leads.unique {step : PathStep} {type'' : Ty} {location'' : Nat}
    (h : Leads mem type location step type' location')
    (h' : Leads mem type location step type'' location'') :
    type' = type'' ∧ location' = location'' := by
  cases step with
  | index i =>
      have heq := (leads_index_iff.mp h).symm.trans (leads_index_iff.mp h')
      exact Prod.mk.inj (Option.some.inj heq)
  | name chars =>
      obtain ⟨m, hm, rfl, rfl⟩ := leads_name_iff.mp h
      obtain ⟨m', hm', rfl, rfl⟩ := leads_name_iff.mp h'
      obtain rfl := Option.some.inj (hm.symm.trans hm')
      exact ⟨rfl, rfl⟩

/-- What the loop gives when it starts at a position of the key: the part that the rest of
the key leads to, or the null pointer if it leads nowhere. -/
def Answers (text : List UInt8) (pos : Nat) (mem : Memory) (type : Ty) (location start : Nat)
    (r : Option XpathResult) : Prop :=
  ∃ found, r = some found ∧
    match found.type with
    | some type' => ∃ steps, Spells text pos steps ∧
        Denotes mem type location steps type' found.location
    | none => found.location = start ∧ ∀ steps type' location', Spells text pos steps →
        ¬ Denotes mem type location steps type' location'

variable {text : List UInt8} {pos stop start : Nat}

/-- Nothing leads on from the position. -/
theorem Answers.null {triggers : UInt32} (hnot : ∀ steps type' location',
      Spells text pos steps → ¬ Denotes mem type location steps type' location') :
    Answers text pos mem type location start (some ⟨none, start, triggers⟩) :=
  ⟨_, rfl, rfl, hnot⟩

/-- A step that leads nowhere. -/
theorem Answers.noStep {step : PathStep} {triggers : UInt32}
    (found : stepAt text pos = some (stop, step))
    (hnot : ∀ type' location', ¬ Leads mem type location step type' location') :
    Answers text pos mem type location start (some ⟨none, start, triggers⟩) := by
  refine Answers.null fun steps type' location' hspells hdenotes => ?_
  obtain ⟨rest, rfl, -⟩ := hspells.first found
  cases hdenotes with
  | step first rest => exact hnot _ _ first

/-- A step, and what the rest of the key leads to. -/
theorem Answers.step {step : PathStep} {next : Nat} {r : Option XpathResult}
    (found : stepAt text pos = some (stop, step))
    (leads : Leads mem type location step type' location')
    (sep : charAt text stop = ch '.' ∧ next = stop + 1 ∨ charAt text stop = ch '[' ∧ next = stop)
    (h : Answers text next mem type' location' start r) :
    Answers text pos mem type location start r := by
  obtain ⟨found', rfl, hfound⟩ := h
  refine ⟨found', rfl, ?_⟩
  cases htype : found'.type with
  | some type'' =>
      rw [htype] at hfound
      obtain ⟨steps, hspells, hdenotes⟩ := hfound
      refine ⟨step :: steps, ?_, .step leads hdenotes⟩
      rcases sep with ⟨hsep, rfl⟩ | ⟨hsep, rfl⟩
      · exact .dot found hsep hspells
      · exact .bracket found hsep hspells
  | none =>
      rw [htype] at hfound
      obtain ⟨hstart, hnot⟩ := hfound
      refine ⟨hstart, fun steps type'' location'' hspells hdenotes => ?_⟩
      obtain ⟨rest, rfl, hrest⟩ := hspells.first found
      have hdot : ch '.' ≠ ch '[' := by decide
      have hend : charAt text text.length = -1 := Cursor.peek_of_le (Nat.le_refl _)
      cases hdenotes with
      | step first hdenotes =>
          obtain ⟨rfl, rfl⟩ := first.unique leads
          rcases hrest with ⟨rfl, -⟩ | ⟨hsep, hrest⟩ | ⟨hsep, hrest⟩
          · rcases sep with ⟨hsep, -⟩ | ⟨hsep, -⟩ <;> rw [hend] at hsep <;> cases hsep
          · rcases sep with ⟨-, rfl⟩ | ⟨hsep', -⟩
            · exact hnot _ _ _ hrest hdenotes
            · exact hdot (hsep.symm.trans hsep')
          · rcases sep with ⟨hsep', -⟩ | ⟨-, rfl⟩
            · exact hdot (hsep'.symm.trans hsep)
            · exact hnot _ _ _ hrest hdenotes

/-- A step with nothing behind it that goes on. -/
theorem Answers.lastStep {step : PathStep} {triggers : UInt32}
    (found : stepAt text pos = some (stop, step))
    (leads : Leads mem type location step type' location')
    (hdot : charAt text stop ≠ ch '.') (hbracket : charAt text stop ≠ ch '[')
    (hstop : stop ≤ text.length) :
    Answers text pos mem type location start (some (if charAt text stop = -1 then
      ⟨some type', location', triggers⟩ else ⟨none, start, triggers⟩)) := by
  by_cases hend : charAt text stop = -1
  · have heq : stop = text.length := by
      have hnot := mt (charAt_ne_end hstop).mpr (not_not.mpr hend)
      omega
    rw [if_pos hend]
    subst heq
    exact ⟨_, rfl, [step], .last found, .step leads .here⟩
  · rw [if_neg hend]
    refine Answers.null fun steps type'' location'' hspells hdenotes => ?_
    obtain ⟨rest, rfl, hrest⟩ := hspells.first found
    rcases hrest with ⟨rfl, -⟩ | ⟨hsep, -⟩ | ⟨hsep, -⟩
    · exact hend (Cursor.peek_of_le (Nat.le_refl _))
    · exact hdot hsep
    · exact hbracket hsep

/-! ## The whole key -/

variable {fl : Floats} {triggersOf : Member → UInt32} {fuel : Nat} {triggers : UInt32}

theorem stays_xpathDone :
    Stays text (xpathDone start type location triggers) pos fun r pos' => pos' = pos ∧
      r = some (if charAt text pos = -1 then ⟨some type, location, triggers⟩
        else ⟨none, start, triggers⟩) := by
  refine .feof_cases (fun hmore => ?_) fun hend => ?_
  · rw [if_neg hmore]
    exact .pure ⟨rfl, rfl⟩
  · rw [if_pos hend]
    exact .pure ⟨rfl, rfl⟩

/-- Behind a step that leads somewhere. -/
theorem stays_xpathSeparator {step : PathStep} {next : FileProg (Option XpathResult)}
    (found : stepAt text pos = some (stop, step))
    (leads : Leads mem type location step type' location')
    (hnext : ∀ pos', stop ≤ pos' → Stays text next pos' fun r _ =>
      Answers text pos' mem type' location' start r) :
    Stays text (xpathSeparator next (xpathDone start type' location' triggers)) stop fun r _ =>
      Answers text pos mem type location start r := by
  refine .of_le fun hstop => .peek ?_
  by_cases hdot : charAt text stop = ch '.'
  · rw [if_pos hdot]
    refine .nextFast (by rw [hdot]; decide) ?_
    refine (hnext (stop + 1) (Nat.le_succ _)).mono fun r _ h => ?_
    exact h.step found leads (Or.inl ⟨hdot, rfl⟩)
  · rw [if_neg hdot]
    refine .peek ?_
    by_cases hbracket : charAt text stop = ch '['
    · rw [if_pos hbracket]
      refine (hnext stop (Nat.le_refl _)).mono fun r _ h => ?_
      exact h.step found leads (Or.inr ⟨hbracket, rfl⟩)
    · rw [if_neg hbracket]
      refine stays_xpathDone.mono fun r _ h => ?_
      obtain ⟨-, rfl⟩ := h
      exact Answers.lastStep found leads hdot hbracket hstop

/-- The loop needs no more passes than there are characters, and one to see the end. -/
theorem stays_xpathLoop (hfuel : text.length ≤ fuel) (n : Nat) (hn : text.length < pos + n) :
    Stays text (xpathLoop fl triggersOf mem fuel start n type location triggers) pos fun r _ =>
      Answers text pos mem type location start r := by
  induction n generalizing pos type location triggers with
  | zero => exact .of_le fun hpos => absurd hn (by omega)
  | succ n ih =>
      refine .of_le fun hpos => .feof_cases (fun hmore => ?_) fun hend => ?_
      · rw [if_pos rfl]
        refine .bind (stays_scanIndex hfuel) fun r pos' h => ?_
        obtain ⟨status, idx⟩ := r
        cases hindex : itemsAt decimalWidth text true indexFormat pos with
        | some found =>
            obtain ⟨stop, vals⟩ := found
            rw [hindex] at h
            obtain ⟨hscan, rfl⟩ := h
            obtain ⟨rfl, rfl⟩ := Prod.mk.inj hscan
            have hstep : stepAt text pos = some (pos', .index (vals.headD 0)) := by
              rw [stepAt, hindex]
            have hlt := stepAt_lt hstep
            dsimp only
            rw [if_pos rfl]
            cases hitem : xpathIndex mem type location (vals.headD 0) with
            | some part =>
                refine stays_xpathSeparator hstep (leads_index_iff.mpr hitem) fun pos'' hle => ?_
                exact ih (by omega)
            | none =>
                refine .pure (Answers.noStep hstep fun type' location' leads => ?_)
                rw [leads_index_iff.mp leads] at hitem
                cases hitem
        | none =>
            rw [hindex] at h
            obtain ⟨hstatus, rfl⟩ := h
            obtain rfl : status = false := hstatus
            dsimp only
            rw [if_neg Bool.false_ne_true]
            refine .bind (stays_scanName hfuel nkdbaseMaxIdentLen) fun r pos'' h => ?_
            obtain ⟨status, buf⟩ := r
            cases htoken : tokenAt isIdentStart isIdentChar text pos' (-1) with
            | some stop =>
                rw [htoken] at h
                obtain ⟨rfl, hscan⟩ := h
                obtain ⟨rfl, rfl⟩ := Prod.mk.inj hscan
                have hstep : stepAt text pos' = some (pos'',
                    .name (tokenText isIdentStart isIdentChar false text pos' (-1))) := by
                  rw [stepAt, hindex, htoken]
                  rfl
                have hlt := stepAt_lt hstep
                dsimp only
                rw [if_pos rfl]
                cases hmember : xpathMember type ((tokenText isIdentStart isIdentChar false text
                    pos' (-1)).take (nkdbaseMaxIdentLen - 1)) with
                | some m =>
                    refine stays_xpathSeparator hstep (leads_name_iff.mpr ⟨m, hmember, rfl, rfl⟩)
                      fun pos₁ hle => ?_
                    exact ih (by omega)
                | none =>
                    refine .pure (Answers.noStep hstep fun type' location' leads => ?_)
                    obtain ⟨m, hm, -⟩ := leads_name_iff.mp leads
                    rw [hm] at hmember
                    cases hmember
            | none =>
                rw [htoken] at h
                obtain ⟨hstatus, -⟩ := h
                obtain rfl : status = false := hstatus
                have hstep : stepAt text pos' = none := by
                  rw [stepAt, hindex, htoken]
                  rfl
                refine .pure (Answers.null fun steps type' location' hspells _ => ?_)
                rw [hspells.none hstep] at hmore
                exact hmore (Cursor.peek_of_le (Nat.le_refl _))
      · rw [if_neg (by decide)]
        refine stays_xpathDone.mono fun r _ h => ?_
        obtain ⟨-, rfl⟩ := h
        have heq : pos = text.length := by
          have hnot := mt (charAt_ne_end hpos).mpr (not_not.mpr hend)
          omega
        subst heq
        rw [if_pos hend]
        exact ⟨_, rfl, [], .done, .here⟩

variable (fl triggersOf triggers) in
/-- `nk_xpath` returns, and what it gives is the part of the value that the key spells, which
is within the value and well-formed; where it gives the null pointer there is no such part,
and `*location_loc` is as it was. -/
theorem nkXpath_inside {key : List UInt8} (hplaced : Placed type) (hok : ValueOk mem type location)
    (hnul : ∀ b ∈ key, b ≠ 0) (hsize : key.length < 2 ^ 32) (hfuel : key.length < fuel)
    (behind : List UInt8) :
    ∃ found, nkXpath fl triggersOf mem fuel (key ++ 0 :: behind) type location triggers =
        some found ∧
      match found.type with
      | some type' =>
          (∃ steps, (∀ steps', Spells key 0 steps' ↔ steps' = steps) ∧
            Denotes mem type location steps type' found.location) ∧
          Inside mem type location type' found.location
      | none => found.location = location ∧ ∀ steps type' location', Spells key 0 steps →
          ¬ Denotes mem type location steps type' location' := by
  have hagrees : Agrees (nkinfileOpenString 32 (key ++ 0 :: behind)) ⟨key, 0⟩ :=
    (Run.openString key behind hsize hnul).agrees
  have hloop : Stays key (xpathLoop fl triggersOf mem fuel location fuel type location triggers) 0
      fun r _ => Answers key 0 mem type location location r :=
    stays_xpathLoop (Nat.le_of_lt hfuel) fuel (by omega)
  obtain ⟨r, f', pos', hrun, -, found, rfl, hfound⟩ := hloop.run hagrees
  refine ⟨found, by rw [nkXpath, hrun, Option.bind_some], ?_⟩
  cases htype : found.type with
  | some type' =>
      rw [htype] at hfound
      obtain ⟨steps, hspells, hdenotes⟩ := hfound
      refine ⟨⟨steps, fun steps' => ⟨hspells.unique, ?_⟩, hdenotes⟩, hdenotes.inside hplaced hok⟩
      rintro rfl
      exact hspells
  | none =>
      rw [htype] at hfound
      exact hfound

/-- The second of two live items of a variable array in a structure. -/
theorem nkXpath_inside_item :
    let type : Ty := .tStruct 12 [([97], .tVarray 4 (.tInteger .tUint8 1 none) none, 0)] none
    let mem : Memory := fun a => if a = 0 then 2 else 0
    ∃ found steps type', nkXpath .absent (fun _ => 1) mem 5 (ascii "a[1]" ++ [0]) type 0 0 =
        some found ∧ found.type = some type' ∧ found.location = 9 ∧
      Denotes mem type 0 steps type' 9 ∧ Inside mem type 0 type' 9 := by
  intro type mem
  have hplaced : Placed type := by
    refine .tStruct (by simp [lenSize]) (by simp) fun m hm => ?_
    rw [List.mem_singleton.mp hm]
    exact .tVarray (by decide) (by decide) rfl (.tInteger (by decide))
  have hok : ValueOk mem type 0 := by
    have hlen : getLen mem 0 = 2 := by decide
    simp only [type, ValueOk, MembersOk, Nat.add_zero, hlen]
    exact ⟨⟨by decide, fun _ _ => trivial⟩, trivial⟩
  have hnul : ∀ b ∈ ascii "a[1]", b ≠ 0 := by decide +kernel
  have hlength : (ascii "a[1]").length < 5 := by decide
  obtain ⟨found, hrun, hfound⟩ := nkXpath_inside .absent (fun _ => 1) 0 hplaced hok hnul
    (by decide) hlength []
  have heval : (nkXpath .absent (fun _ => 1) mem 5 (ascii "a[1]" ++ [0]) type 0 0).map
      (fun r => (r.type.isSome, r.location)) = some (true, 9) := by decide +kernel
  rw [hrun, Option.map_some, Option.some.injEq, Prod.mk.injEq] at heval
  obtain ⟨hsome, hlocation⟩ := heval
  obtain ⟨type', htype⟩ := Option.isSome_iff_exists.mp hsome
  rw [htype, hlocation] at hfound
  obtain ⟨⟨steps, -, hdenotes⟩, hinside⟩ := hfound
  exact ⟨found, steps, type', hrun, htype, hlocation, hdenotes, hinside⟩

end

end LibnklabsPico.Dbase
